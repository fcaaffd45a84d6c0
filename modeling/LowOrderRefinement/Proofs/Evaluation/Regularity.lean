import LowOrderRefinement.Proofs.Assembly.Concurrency
import LowOrderRefinement.Proofs.Cell.ClosedForms
import LowOrderRefinement.Proofs.Errors.Requirements

/-! When a sub-cell has metric terms. The Jacobians that an evaluation uses are those
that the options select, and the terms of a sub-cell exist exactly when all of its
Jacobians are confirmed and have positive determinants. So whatever has been prepared
or assembled had a refinement and a space that fit together and regular sub-cells. -/

namespace LowOrderRefinement

variable {α : Type} [Scalar α]

/-! ### Metrics -/

theorem Metric.exists_guarded {β : Type} (det : α) (metric : β) :
    (∃ m, (if Scalar.isPos det then .ok metric else .error det : Except α β) = .ok m) ↔
      Scalar.isPos det = true := by
  split <;> simp [*]

theorem Metric.exists_planar {j : Mat2 α} (weight : α) :
    (∃ m, Metric.planar j weight = .ok m) ↔ Scalar.isPos j.det = true :=
  exists_guarded _ _

theorem Metric.exists_solid {j : Mat3 α} (weight : α) :
    (∃ m, Metric.solid j weight = .ok m) ↔ Scalar.isPos (Metric.solidDet j) = true :=
  exists_guarded _ _

namespace Refinement

/-- The metrics of a planar sub-cell exist when there is a Jacobian with positive determinant at
every quadrature point. -/
theorem exists_planarTerms {source : JacobianSource α} {cell : Quadrilateral α} {parent s : Nat} :
    (∃ metrics, planarTerms source cell parent s = .ok metrics) ↔
      ∀ (point : Nat) (weight : α) (ξ : Vec2 α), Quadrature.square[point]? = some (weight, ξ) →
        ∃ j, source.planar cell s point ξ = .ok j ∧ Scalar.isPos j.det = true := by
  rw [planarTerms, exists_mapM_zipIdx_eq_ok]
  simp only [Prod.forall, bind_eq_ok, accept_eq_ok]
  refine forall₄_congr fun point weight ξ hpoint => ?_
  rw [exists_comm]
  simp only [exists_and_left, Metric.exists_planar]

theorem exists_solidTerms {cell : Hexahedron α} {parent s : Nat} :
    (∃ metrics, solidTerms cell parent s = .ok metrics) ↔
      ∀ (point : Nat) (weight : α) (ξ : Vec3 α), Quadrature.cube[point]? = some (weight, ξ) →
        Scalar.isPos (Metric.solidDet (cell.jacobian ξ)) = true := by
  rw [solidTerms, exists_mapM_zipIdx_eq_ok]
  simp only [Prod.forall, accept_eq_ok, Metric.exists_solid]

/-! ### Jacobians -/

variable {r : Refinement α} {options : Options α}

theorem planarJacobian_of_factors {K : Type} [ExactField K] {r : Refinement K}
    (h : r.factors = none) (options : Options K) (cell : Quadrilateral K) (s q : Nat)
    (ξ : Vec2 K) : r.planarJacobian options cell s q ξ = .ok (cell.jacobian ξ) := by
  unfold planarJacobian
  rw [h]
  cases options.planarJacobians with
  | vertices => rfl
  | geometricFactors => exact congrArg Except.ok (cell.jacobian_eq ξ).symm

/-- The Jacobians that an evaluation uses are those that the options select, once confirmed. -/
theorem planar_eq_ok {source : JacobianSource α}
    (hsource : r.jacobianSource .two options = .ok source) (hr : r.dim = 2) {s : Nat}
    (hs : s < r.subcells) {cell : Quadrilateral α} (hcell : r.quadrilateral s = .ok cell)
    {point : Nat} {weight : α} {ξ : Vec2 α} (hpoint : Quadrature.square[point]? = some (weight, ξ))
    {j : Mat2 α} :
    source.planar cell s point ξ = .ok j ↔
      r.planarJacobian options cell s point ξ = .ok j ∧
        confirms options j (cell.jacobian ξ) = true := by
  have hconfirms (hplanar : options.planarJacobians = .geometricFactors) :
      (∀ tolerance, options.verify = some tolerance →
        JacobianSource.agrees j (cell.jacobian ξ) tolerance = true) ↔
      confirms options j (cell.jacobian ξ) = true := by
    simp only [confirms, hplanar]
    cases options.verify <;> simp
  cases hplanar : options.planarJacobians with
  | vertices =>
    simp only [jacobianSource.eq_def, hplanar, Except.ok.injEq] at hsource
    subst hsource
    simp [JacobianSource.planar, planarJacobian, confirms, hplanar]
  | geometricFactors =>
    rw [← hconfirms hplanar]
    simp only [jacobianSource.eq_def, hplanar] at hsource
    cases hfactors : r.factors with
    | some factors =>
      simp only [hfactors, bind_eq_ok, agree_eq_ok, exists_const, pure_eq_ok] at hsource
      obtain ⟨-, -, rfl⟩ := hsource
      simp only [JacobianSource.planar_stored_eq_ok, planarJacobian, hplanar, hfactors]
    | none =>
      simp only [hfactors] at hsource
      obtain ⟨factors, hcompute, hsource⟩ := bind_eq_ok.mp hsource
      obtain rfl := pure_eq_ok.mp hsource
      have hdim : factors.dim = .two := dim_of_computeFactors hcompute hr
      simp only [JacobianSource.planar_stored_eq_ok, planarJacobian, hplanar, hfactors,
        factors.planar_of_computeFactors hcompute hdim hs hcell hpoint]

/-- A sub-cell has metric terms exactly when it is regular. -/
theorem exists_subcellTerms {dim : Dimension} {source : JacobianSource α}
    (hsource : r.jacobianSource dim options = .ok source) (hr : r.dim = dim.value) {s : Nat}
    (hs : s < r.subcells) (parent : Nat) :
    (∃ terms, r.subcellTerms dim source parent s = .ok terms) ↔ r.Regular dim options s := by
  cases dim with
  | two =>
    have hterms (cell : Quadrilateral α) (hcell : r.quadrilateral s = .ok cell) :
        (∃ metrics, planarTerms source cell parent s = .ok metrics) ↔
          ∀ (point : Nat) (weight : α) (ξ : Vec2 α),
            Quadrature.square[point]? = some (weight, ξ) →
              ∃ j, r.planarJacobian options cell s point ξ = .ok j ∧
                confirms options j (cell.jacobian ξ) = true ∧ Scalar.isPos j.det = true := by
      rw [exists_planarTerms]
      refine forall_congr' fun point => forall_congr' fun weight => forall_congr' fun ξ =>
        forall_congr' fun hpoint => exists_congr fun j => ?_
      rw [planar_eq_ok hsource hr hs hcell hpoint, and_assoc]
    simp only [subcellTerms, bind_eq_ok, lift_eq_ok, pure_eq_ok, Regular]
    constructor
    · rintro ⟨-, cell, hcell, metrics, hmetrics, -⟩
      exact ⟨cell, hcell, (hterms cell hcell).mp ⟨metrics, hmetrics⟩⟩
    · rintro ⟨cell, hcell, h⟩
      obtain ⟨metrics, hmetrics⟩ := (hterms cell hcell).mpr h
      exact ⟨_, cell, hcell, metrics, hmetrics, rfl⟩
  | three =>
    simp only [subcellTerms, bind_eq_ok, lift_eq_ok, pure_eq_ok, Regular]
    constructor
    · rintro ⟨-, cell, hcell, metrics, hmetrics, -⟩
      exact ⟨cell, hcell, exists_solidTerms.mp ⟨metrics, hmetrics⟩⟩
    · rintro ⟨cell, hcell, h⟩
      have hexists : ∃ metrics, solidTerms cell parent s = .ok metrics := exists_solidTerms.mpr h
      obtain ⟨metrics, hmetrics⟩ := hexists
      exact ⟨_, cell, hcell, metrics, hmetrics, rfl⟩

end Refinement

/-! ### Accepted input -/

namespace Assembly

variable {r : Refinement α} {space : Space} {options : Options α} {dim : Dimension}

/-- A refinement and a space whose slots and Jacobians have been accepted fit together. -/
theorem Checks.configured (h : Checks r space dim)
    (hcovers : r.Covers dim space.elements (space.order ^ dim.value)) {source : JacobianSource α}
    (hsource : r.jacobianSource dim options = .ok source) : Configured r space options dim where
  checks := h
  subcells_eq := hcovers.subcells_eq
  covers := hcovers
  factors_fit := by
    rintro rfl hplanar factors hfactors
    simp only [Refinement.jacobianSource.eq_def, hplanar, hfactors, bind_eq_ok, agree_eq_ok,
      exists_const] at hsource
    obtain ⟨hdim, hsubcells, -⟩ := hsource
    exact ⟨Dimension.eq_of_value_eq hdim.symm, hsubcells.symm⟩

theorem regular_of_evaluated {source : JacobianSource α} {m : MetricArray α}
    (hsource : r.jacobianSource dim options = .ok source)
    (h : r.Evaluated dim space.order space.elements source m) :
    ∀ s < r.subcells, r.Regular dim options s := by
  intro s hs
  obtain ⟨terms, hterms, -⟩ := h.stored s hs
  exact (Refinement.exists_subcellTerms hsource h.dim_eq hs _).mp ⟨terms, hterms⟩

theorem evaluable_of_prepare {schedule : Schedule} {s : Setup α} {m : MetricArray α}
    (h : prepare schedule r space options = .ok (s, m)) : Evaluable r space options := by
  obtain ⟨dim, source, hchecks, -, hsource, heval⟩ := prepare_spec h
  exact ⟨dim, hchecks.configured heval.covers hsource, regular_of_evaluated hsource heval⟩

theorem Contributing.accepted {source : JacobianSource α} {m : MetricArray α}
    (h : Contributing r space options dim source m) :
    Configured r space options dim ∧ (∀ s < r.subcells, r.Regular dim options s) ∧
      ∀ e < space.elements, space.Accepts ((space.order + 1) ^ dim.value) e :=
  ⟨h.checks.configured h.evaluated.covers h.source_eq,
    regular_of_evaluated h.source_eq h.evaluated, h.accepts⟩

end Assembly

end LowOrderRefinement
