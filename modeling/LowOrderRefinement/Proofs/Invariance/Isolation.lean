import LowOrderRefinement.Proofs.Invariance.Renumbering

/-! Which inputs reach the matrix through the Jacobians. Jacobians that are taken from
the vertices do not depend on stored ones, nor on a tolerance for these; stored
Jacobians that need not be confirmed do not depend on the vertices. In both cases
the other input decides neither the matrix nor an error. Whether Jacobians can be
computed at all depends on how many coordinates there are, and not on their values. -/

namespace LowOrderRefinement

variable {α : Type}

namespace Refinement

def withFactors (r : Refinement α) (factors : Option (GeometricFactors α)) : Refinement α :=
  { r with factors }

def withVertices (r : Refinement α) (vertices : Nat → List α) : Refinement α :=
  { r with vertices }

end Refinement

namespace Refinement

variable [Scalar α] {r r' : Refinement α} {dim : Dimension}

theorem allTerms_congr (schedule : Schedule) {source source' : JacobianSource α}
    {perElement : Nat} {table : Array Nat}
    (h : ∀ slot < table.size, r.slotTerms dim source perElement table slot =
      r'.slotTerms dim source' perElement table slot) (parallel : Bool) :
    r.allTerms schedule dim source perElement table parallel =
      r'.allTerms schedule dim source' perElement table parallel := by
  have htask : ∀ slot ∈ List.range table.size, r.slotTerms dim source perElement table slot =
      r'.slotTerms dim source' perElement table slot :=
    fun slot hslot => h slot (List.mem_range.mp hslot)
  cases parallel with
  | true => exact schedule.leastFailure_congr _ htask
  | false => exact mapM_congr htask

/-! ### Jacobians from the vertices -/

theorem jacobianSource_of_vertices {options : Options α}
    (h : dim ≠ .two ∨ options.planarJacobians = .vertices) :
    r.jacobianSource dim options = .ok .vertices := by
  cases dim with
  | three => rfl
  | two =>
    simp only [ne_eq, not_true_eq_false, false_or] at h
    simp only [jacobianSource.eq_def, h]

theorem evaluateMetric_withFactors (schedule : Schedule) (order elements : Nat)
    {options : Options α} (h : r.dim ≠ 2 ∨ options.planarJacobians = .vertices)
    (factors : Option (GeometricFactors α)) (verify : Option α) :
    ((r.withFactors factors).evaluateMetric schedule order elements
      (options.withVerify verify)).result =
      (r.evaluateMetric schedule order elements options).result := by
  rw [evaluateMetric_result, evaluateMetric_result]
  refine bind_congr_of_ok fun dim hdim => bind_congr_of_ok fun table _ => ?_
  have hvertices : dim ≠ .two ∨ options.planarJacobians = .vertices := by
    refine h.imp_left fun hne => ?_
    rintro rfl
    exact hne (dimension_eq_ok.mp hdim)
  have hmoved : (r.withFactors factors).jacobianSource dim (options.withVerify verify) =
      .ok .vertices :=
    jacobianSource_of_vertices hvertices
  rw [hmoved, jacobianSource_of_vertices hvertices]
  rfl

/-! ### Stored Jacobians -/

theorem jacobianSource_of_factors {options : Options α} {factors : GeometricFactors α}
    (hfactors : r.factors = some factors) (hplanar : options.planarJacobians = .geometricFactors) :
    r.jacobianSource .two options = (do
      .agree .factorDimension 2 factors.dim.value
      .agree .factorSubcells r.subcells factors.subcells
      return .stored factors options.verify) := by
  simp only [jacobianSource.eq_def, hplanar, hfactors]

/-- Stored Jacobians that need not be confirmed give the same terms for any vertices. -/
theorem subcellTerms_withVertices (factors : GeometricFactors α) {vertices : Nat → List α}
    {s : Nat} (h : (vertices s).length = (r.vertices s).length) (parent : Nat) :
    (r.withVertices vertices).subcellTerms .two (.stored factors none) parent s =
      r.subcellTerms .two (.stored factors none) parent s := by
  have hcell : discard (liftM ((r.withVertices vertices).quadrilateral s) : Outcome α _) =
      discard (liftM (r.quadrilateral s) : Outcome α _) :=
    discard_lift_congr (Quadrilateral.decodes.discard_congr h)
  exact bind_congr_of_discard hcell fun _ _ => rfl

theorem evaluateMetric_withVertices (schedule : Schedule) (order elements : Nat)
    {options : Options α} (hdim : r.dim = 2) {factors : GeometricFactors α}
    (hfactors : r.factors = some factors) (hplanar : options.planarJacobians = .geometricFactors)
    (hverify : options.verify = none) {vertices : Nat → List α}
    (hlength : ∀ s < r.subcells, (vertices s).length = (r.vertices s).length) :
    ((r.withVertices vertices).evaluateMetric schedule order elements options).result =
      (r.evaluateMetric schedule order elements options).result := by
  rw [evaluateMetric_result, evaluateMetric_result]
  refine bind_congr_of_ok fun dim hd => bind_congr_of_ok fun table htable => ?_
  obtain rfl : dim = .two := Dimension.eq_of_value_eq ((dimension_eq_ok.mp hd).symm.trans hdim)
  have hsame : (r.withVertices vertices).jacobianSource .two options =
      r.jacobianSource .two options := by
    rw [jacobianSource_of_factors hfactors hplanar]
    exact jacobianSource_of_factors hfactors hplanar
  rw [hsame]
  refine bind_congr_of_ok fun source hsource => ?_
  have hstored : source = .stored factors none := by
    simp only [jacobianSource_of_factors hfactors hplanar, hverify, bind_eq_ok, pure_eq_ok]
      at hsource
    obtain ⟨-, -, -, -, heq⟩ := hsource
    exact heq.symm
  refine bind_congr_of_ok fun perElement _ => bind_congr_of_ok fun _ _ => ?_
  congr 1
  refine allTerms_congr schedule (fun slot hslot => ?_) _
  obtain ⟨s, hs, hget, -⟩ := (slots_spec htable).exists_getElem slot hslot
  simp only [slotTerms, entryAt_eq_ok.mpr hget, lift_ok, ok_bind, hstored]
  exact subcellTerms_withVertices factors (hlength s hs) _

/-! ### Computed Jacobians -/

theorem discard_jacobianRows_withVertices {vertices : Nat → List α} {s : Nat}
    (h : (vertices s).length = (r.vertices s).length) :
    discard ((r.withVertices vertices).jacobianRows .two s) = discard (r.jacobianRows .two s) := by
  exact discard_bind_congr (Quadrilateral.decodes.discard_congr h) fun _ _ _ _ => rfl

theorem discard_computeFactors_withVertices (hdim : r.dim = Dimension.two.value)
    {vertices : Nat → List α}
    (h : ∀ s < r.subcells, (vertices s).length = (r.vertices s).length) :
    discard (r.withVertices vertices).computeFactors = discard r.computeFactors := by
  refine discard_bind_congr rfl fun dim dim' hd hd' => ?_
  obtain rfl := Except.ok.inj (hd.symm.trans hd')
  obtain rfl : dim = .two := Dimension.eq_of_value_eq ((dimension_eq_ok.mp hd).symm.trans hdim)
  refine discard_bind_congr rfl fun layout layout' hlayout hlayout' => ?_
  obtain rfl := Except.ok.inj (hlayout.symm.trans hlayout')
  have hfits := Layout.fits_of_firstIndexFastest (lift_eq_ok.mp hlayout)
  refine discard_bind_congr rfl fun length length' hlength hlength' => ?_
  obtain rfl := Except.ok.inj (hlength.symm.trans hlength')
  refine discard_bind_congr rfl fun _ _ _ _ => ?_
  refine discard_bind_congr ?_ fun cells cells' hcells hcells' => ?_
  · refine discard_mapM_congr fun s hs => discard_bind_congr rfl fun _ _ _ _ => ?_
    refine discard_bind_congr ?_ fun _ _ _ _ => rfl
    exact discard_lift_congr (discard_jacobianRows_withVertices (h s (List.mem_range.mp hs)))
  · have hdim' : (r.withVertices vertices).dim = Dimension.two.value := hdim
    obtain ⟨f, hf⟩ := Assembly.exists_ofEntries_computed hdim' hfits hcells
    obtain ⟨f', hf'⟩ := Assembly.exists_ofEntries_computed hdim hfits hcells'
    rw [hf, hf']
    rfl

/-- Whether there are Jacobians depends on the number of coordinates only. -/
theorem discard_jacobianSource_withVertices {options : Options α} (hdim : r.dim = dim.value)
    {vertices : Nat → List α}
    (h : ∀ s < r.subcells, (vertices s).length = (r.vertices s).length) :
    discard ((r.withVertices vertices).jacobianSource dim options) =
      discard (r.jacobianSource dim options) := by
  cases dim with
  | three => rfl
  | two =>
    cases hplanar : options.planarJacobians with
    | vertices => simp only [jacobianSource.eq_def, hplanar]
    | geometricFactors =>
      simp only [jacobianSource.eq_def, hplanar]
      cases hfactors : r.factors with
      | some factors => simp only [withVertices, hfactors]
      | none =>
        simp only [withVertices, hfactors]
        exact discard_bind_congr (discard_computeFactors_withVertices hdim h) fun _ _ _ _ => rfl

end Refinement

namespace Assembly

variable [Scalar α]

/-- The metric terms are all that an assembly takes from a refinement after its checks. -/
theorem assemble_congr (schedule : Schedule) {r r' : Refinement α} {space : Space}
    (essential : List Nat) {options options' : Options α} (hdim : r.dim = r'.dim)
    (hparallel : options.parallel = options'.parallel)
    (hmetric : space.dim = r'.dim →
      (r.evaluateMetric schedule space.order space.elements options).result =
        (r'.evaluateMetric schedule space.order space.elements options').result) :
    (assemble schedule r space essential options).result =
      (assemble schedule r' space essential options').result := by
  have hsetup : setup r space = setup r' space := by rw [setup, hdim, setup]
  have hprepare : prepare schedule r space options = prepare schedule r' space options' := by
    rw [prepare, prepare, hsetup]
    refine bind_congr_of_ok fun s hs => ?_
    obtain ⟨dim, hchecks, -⟩ := setup_spec hs
    rw [hmetric (hchecks.space_dim.trans hchecks.refinement_dim.symm)]
  rw [assemble_result, assemble_result, hprepare, hparallel]

/-- Jacobians of hexahedra, and planar ones that are taken from the vertices, leave the result
independent of stored Jacobians and of a tolerance for these. Planar ones that are stored and need
not be confirmed leave it independent of the coordinates of the vertices. -/
theorem assemble_isolated (schedule : Schedule) (r : Refinement α) (space : Space)
    (essential : List Nat) (options : Options α) :
    (r.dim ≠ 2 ∨ space.dim ≠ 2 ∨ options.planarJacobians = .vertices →
      ∀ factors verify,
        (assemble schedule (r.withFactors factors) space essential
          (options.withVerify verify)).result =
          (assemble schedule r space essential options).result) ∧
    (r.dim = 2 → options.planarJacobians = .geometricFactors → options.verify = none →
      r.factors.isSome →
      ∀ vertices, (∀ s < r.subcells, (vertices s).length = (r.vertices s).length) →
        (assemble schedule (r.withVertices vertices) space essential options).result =
          (assemble schedule r space essential options).result) := by
  constructor
  · intro hvertices factors verify
    refine assemble_congr schedule essential rfl rfl fun hdim => ?_
    refine Refinement.evaluateMetric_withFactors schedule _ _ ?_ factors verify
    rw [hdim] at hvertices
    rwa [← or_assoc, or_self] at hvertices
  · intro hdim hplanar hverify hfactors vertices hlength
    obtain ⟨factors, hfactors⟩ := Option.isSome_iff_exists.mp hfactors
    exact assemble_congr schedule essential rfl rfl fun _ =>
      Refinement.evaluateMetric_withVertices schedule _ _ hdim hfactors hplanar hverify hlength

/-- Two rectangles with the Jacobians of folded ones beside their vertices, and with their own
Jacobians beside vertices that all lie in one point. -/
theorem assemble_isolated_rectangles :
    let stored := Options.standard.withParallel false
    let closed := stored.withPlanarJacobians .vertices
    (∃ a, (assemble .inOrder rectangles sharedNodes [] closed).result = .ok a ∧
      (assemble .inOrder (rectangles.withFactors (some (rectangleFactors (-1) 5))) sharedNodes []
        (closed.withVerify (some 0))).result = .ok a) ∧
    ∃ a, (assemble .inOrder rectangles sharedNodes [] stored).result = .ok a ∧
      (assemble .inOrder (rectangles.withVertices fun _ => List.replicate 8 0) sharedNodes []
        stored).result = .ok a := by
  have hclosed : (assemble .inOrder rectangles sharedNodes []
      ((Options.standard.withParallel false).withPlanarJacobians .vertices)).result.isOk = true := by
    decide +kernel
  have hstored : (assemble .inOrder rectangles sharedNodes []
      (Options.standard.withParallel false)).result.isOk = true := by decide +kernel
  obtain ⟨a, ha⟩ := exists_of_isOk hclosed
  obtain ⟨b, hb⟩ := exists_of_isOk hstored
  obtain ⟨hfactors, -⟩ := assemble_isolated .inOrder rectangles sharedNodes []
    ((Options.standard.withParallel false).withPlanarJacobians .vertices)
  obtain ⟨-, hvertices⟩ := assemble_isolated .inOrder rectangles sharedNodes []
    (Options.standard.withParallel false)
  refine ⟨⟨a, ha, ?_⟩, b, hb, ?_⟩
  · exact (hfactors (.inr (.inr rfl)) _ _).trans ha
  · refine (hvertices rfl rfl rfl rfl _ ?_).trans hb
    show ∀ s < 2, _
    decide

end Assembly

end LowOrderRefinement
