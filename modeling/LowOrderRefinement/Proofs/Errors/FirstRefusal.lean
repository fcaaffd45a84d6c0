import LowOrderRefinement.Proofs.Errors.Precedence
import LowOrderRefinement.Proofs.Slots.SlotTable

/-! The sub-cell that an assembly reports. In an accepted configuration everything before the
evaluation of metric terms succeeds; the terms are then evaluated slot by slot, and the
first sub-cell that fails in this order ends the assembly, whatever the mode and the
schedule. -/

namespace LowOrderRefinement.Assembly

variable {α : Type} [Scalar α] {r : Refinement α} {space : Space} {options : Options α}
  {dim : Dimension}

/-! ### Before the metric terms -/

/-- What breaks no requirement and reads nothing that could have a defect succeeds: whatever it
reported would be about an accepted configuration, and about one that is not accepted. -/
theorem exists_of_unread {β : Type} {x : Outcome α β} (hfaultless : x.Faultless)
    (hconfigured : Configured r space options dim)
    (hreports : x.Reports (Defect r space options)) {r' : Refinement α} {space' : Space}
    (hrejected : ∀ dim', ¬Configured r' space' options dim')
    (hreports' : x.Reports (Defect r' space' options)) : ∃ b, x = .ok b := by
  refine hfaultless.exists_of_reports fun cause hcause => ?_
  exact hconfigured.kind_ne (hreports cause hcause)
    ((hreports' cause hcause).kind_eq_configuration hrejected)

variable (hconfigured : Configured r space options dim)

include hconfigured

theorem setup_eq_ok : setup r space = .ok (.ofOrder dim space.order) := by
  let r' : Refinement α := { r with subcells := r.subcells + 1 }
  have hrejected (dim' : Dimension) : ¬Configured r' space options dim' := by
    intro h
    have hsubcells : r.subcells + 1 = space.elements * space.order ^ dim'.value := h.subcells_eq
    obtain rfl : dim = dim' := Dimension.eq_of_value_eq
      (hconfigured.checks.space_dim.symm.trans h.checks.space_dim)
    have := hconfigured.subcells_eq
    omega
  obtain ⟨s, hs⟩ := exists_of_unread (faultless_setup r space) hconfigured
    (reports_setup r space options) hrejected (reports_setup r' space options)
  obtain ⟨dim', hchecks, rfl⟩ := setup_spec hs
  obtain rfl : dim = dim' := Dimension.eq_of_value_eq
    (hconfigured.checks.space_dim.symm.trans hchecks.space_dim)
  exact hs

omit hconfigured [Scalar α] in
theorem not_configured_of_basis (r : Refinement α) (space : Space) (options : Options α)
    (dim : Dimension) : ¬Configured r { space with basis := .other } options dim := by
  intro h
  cases h.checks.basis_eq

variable (hcomplete : r.Complete) (hstorable : Storable r space options dim)

include hstorable

omit [Scalar α] in
theorem exists_slots : ∃ table, r.slots dim space.order space.elements = .ok table :=
  hconfigured.covers.exists_slots (hstorable.termsStorable hconfigured.checks)

include hcomplete

theorem exists_jacobianSource : ∃ source, r.jacobianSource dim options = .ok source := by
  have hle (hdim : dim = .two) (hplanar : options.planarJacobians = .geometricFactors)
      (hnone : r.factors = none) : 16 * r.subcells ≤ Size.maxEntries := by
    rw [hconfigured.subcells_eq]
    exact hstorable.jacobians_le hdim hplanar hnone
  exact exists_of_unread
    (faultless_jacobianSource hconfigured.checks.refinement_dim hcomplete hle) hconfigured
    (reports_defective_jacobianSource hconfigured.checks.refinement_dim)
    (not_configured_of_basis r space options)
    (reports_defective_jacobianSource hconfigured.checks.refinement_dim)

/-! ### The metric terms -/

/-- The first sub-cell that fails, in the order of the slots, ends the evaluation of metric
terms. -/
theorem evaluateMetric_of_first (schedule : Schedule) {s : Nat} (hs : s < r.subcells)
    (hbefore : ∀ t < r.subcells, Refinement.slotOf (space.order ^ dim.value) (r.embedding t) <
      Refinement.slotOf (space.order ^ dim.value) (r.embedding s) → r.Regular dim options t)
    {c : Failure α} (hfails : ∀ source, r.jacobianSource dim options = .ok source →
      r.subcellTerms dim source (r.embedding s).parent s = .error c) :
    (r.evaluateMetric schedule space.order space.elements options).result = .error c := by
  have hr := hconfigured.checks.refinement_dim
  obtain ⟨table, htable⟩ := exists_slots hconfigured hstorable
  obtain ⟨source, hsource⟩ := exists_jacobianSource hconfigured hcomplete hstorable
  obtain ⟨n, hn⟩ := (hstorable.termsStorable hconfigured.checks).terms
  have hslots := Refinement.slots_spec htable
  have hlt : Refinement.slotOf (space.order ^ dim.value) (r.embedding s) < table.size :=
    (Array.getElem?_eq_some_iff.mp (hslots.getElem_slotOf s hs)).1
  have hserial : r.allTerms schedule dim source (space.order ^ dim.value) table false =
      .error c := by
    refine mapM_range_eq_error.mpr ⟨_, hlt, ?_, fun slot hslot => ?_⟩
    · rw [Refinement.slotTerms, entryAt_eq_ok.mpr (hslots.getElem_slotOf s hs), lift_ok, ok_bind,
        Refinement.slotOf_div (hslots.placed s hs).offset_lt]
      exact hfails source hsource
    · obtain ⟨t, ht, hget, rfl⟩ := hslots.exists_getElem slot (hslot.trans hlt)
      obtain ⟨terms, hterms⟩ := (Refinement.exists_subcellTerms hsource hr ht
        (r.embedding t).parent).mpr (hbefore t ht hslot)
      refine ⟨terms, Refinement.slotTerms_eq_ok.mpr ⟨t, hget, ?_⟩⟩
      rwa [Refinement.slotOf_div (hslots.placed t ht).offset_lt]
  have hterms : r.allTerms schedule dim source (space.order ^ dim.value) table options.parallel =
      .error c := by
    cases options.parallel with
    | false => exact hserial
    | true =>
      rw [Refinement.allTerms_parallel schedule schedule hr hcomplete
        (Refinement.suits_of_jacobianSource hr hsource) hslots, hserial]
  rw [Refinement.evaluateMetric_result, dimension_eq_ok.mpr hr, ok_bind, htable, ok_bind, hsource,
    ok_bind, hconfigured.checks.subcells_eq_ok, lift_ok, ok_bind, hn, hterms]
  rfl

theorem assemble_of_first (schedule : Schedule) (essential : List Nat) {s : Nat}
    (hs : s < r.subcells)
    (hbefore : ∀ t < r.subcells, Refinement.slotOf (space.order ^ dim.value) (r.embedding t) <
      Refinement.slotOf (space.order ^ dim.value) (r.embedding s) → r.Regular dim options t)
    {c : Failure α} (hfails : ∀ source, r.jacobianSource dim options = .ok source →
      r.subcellTerms dim source (r.embedding s).parent s = .error c) :
    (assemble schedule r space essential options).result = .error c := by
  apply assemble_of_prepare_eq_error
  rw [prepare, setup_eq_ok hconfigured, ok_bind,
    evaluateMetric_of_first hconfigured hcomplete hstorable schedule hs hbefore hfails]
  rfl

end LowOrderRefinement.Assembly
