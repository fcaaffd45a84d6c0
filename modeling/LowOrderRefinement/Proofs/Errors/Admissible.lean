import LowOrderRefinement.Proofs.Errors.Acceptance

/-! Success of an assembly as a property of its input. An input is admissible when its
refinement and space fit together, its sub-cells are regular, its elements have their
degrees of freedom and all its arrays can be stored; exactly then there is a matrix.
Neither the schedule nor the essential degrees of freedom have a part in this, so that
two inputs can be compared before anything is computed from them. -/

namespace LowOrderRefinement

variable {α : Type}

/-! ### What could be stored -/

theorem Size.le_of_reserve {n : Nat} {u : Unit} (h : reserve n = .ok u) : n ≤ maxEntries :=
  of_decide_eq_true (require_eq_ok.mp h)

theorem Layout.le_of_reserve {shape : List Nat} {layout : Layout} {n : Nat} {u : Unit}
    (hlayout : firstIndexFastest shape = .ok layout) (hlength : layout.length = .ok n)
    (hreserve : Size.reserve n = .ok u) : shape.prod ≤ Size.maxEntries := by
  obtain rfl := firstIndexFastest_eq_ok.mp hlayout
  rw [length_eq, Except.ok.injEq] at hlength
  exact hlength ▸ Size.le_of_reserve hreserve

theorem MetricArray.le_of_storage {components points subcells elements n : Nat}
    (h : storage components points subcells elements = .ok n) :
    [components, points, subcells, elements].prod ≤ Size.maxEntries := by
  obtain ⟨layout, hlayout, h⟩ := bind_eq_ok.mp h
  obtain ⟨length, hlength, h⟩ := bind_eq_ok.mp h
  obtain ⟨u, hreserve, -⟩ := bind_eq_ok.mp h
  exact Layout.le_of_reserve hlayout hlength hreserve

namespace Refinement

variable [Scalar α] {r : Refinement α} {dim : Dimension} {options : Options α}

theorem Regular.length_vertices {s : Nat} (h : r.Regular dim options s) :
    (r.vertices s).length = dim.value * 2 ^ dim.value := by
  cases dim with
  | two =>
    obtain ⟨cell, hcell, -⟩ := h
    exact Quadrilateral.decodes.length_of_ok hcell
  | three =>
    obtain ⟨cell, hcell, -⟩ := h
    exact Hexahedron.decodes.length_of_ok hcell

theorem le_of_computeFactors {factors : GeometricFactors α}
    (hr : r.dim = Dimension.two.value) (h : r.computeFactors = .ok factors) :
    16 * r.subcells ≤ Size.maxEntries := by
  obtain ⟨dim, hdim, h⟩ := bind_eq_ok.mp h
  obtain ⟨layout, hlayout, h⟩ := bind_eq_ok.mp h
  obtain ⟨length, hlength, h⟩ := bind_eq_ok.mp h
  obtain ⟨u, hreserve, -⟩ := bind_eq_ok.mp h
  obtain rfl : dim = .two := Dimension.eq_of_value_eq ((dimension_eq_ok.mp hdim).symm.trans hr)
  have hle := Layout.le_of_reserve (lift_eq_ok.mp hlayout) (lift_eq_ok.mp hlength)
    (lift_eq_ok.mp hreserve)
  refine le_of_eq_of_le ?_ hle
  simp only [Dimension.vertices, Dimension.value, List.prod_cons, List.prod_nil]
  ring

theorem jacobians_le_of_jacobianSource {source : JacobianSource α} (hr : r.dim = dim.value)
    (h : r.jacobianSource dim options = .ok source) (hdim : dim = .two)
    (hplanar : options.planarJacobians = .geometricFactors) (hnone : r.factors = none) :
    16 * r.subcells ≤ Size.maxEntries := by
  subst hdim
  simp only [jacobianSource.eq_def, hplanar, hnone] at h
  obtain ⟨factors, hfactors, -⟩ := bind_eq_ok.mp h
  exact le_of_computeFactors hr hfactors

theorem terms_le_of_evaluateMetric {schedule : Schedule} {order elements : Nat}
    {m : MetricArray α} (hr : r.dim = dim.value)
    (h : (r.evaluateMetric schedule order elements options).result = .ok m) :
    dim.components * dim.vertices * (elements * order ^ dim.value) ≤ Size.maxEntries := by
  rw [evaluateMetric_result, dimension_eq_ok.mpr hr, ok_bind] at h
  obtain ⟨table, -, h⟩ := bind_eq_ok.mp h
  obtain ⟨source, -, h⟩ := bind_eq_ok.mp h
  obtain ⟨perElement, hper, h⟩ := bind_eq_ok.mp h
  obtain ⟨u, hstorage, -⟩ := bind_eq_ok.mp h
  obtain ⟨-, rfl⟩ := Size.pow_eq_ok.mp (lift_eq_ok.mp hper)
  obtain ⟨n, hn⟩ := discard_eq_ok.mp hstorage
  rw [← dim.prod_terms]
  exact MetricArray.le_of_storage (lift_eq_ok.mp hn)

end Refinement

/-! ### Admissible input -/

namespace Assembly

variable [Scalar α]

/-- All that an assembly asks of its input. -/
structure Admissible (r : Refinement α) (space : Space) (options : Options α) (dim : Dimension) :
    Prop where
  configured : Configured r space options dim
  storable : Storable r space options dim
  regular : ∀ s < r.subcells, r.Regular dim options s
  accepts : ∀ e < space.elements, space.Accepts ((space.order + 1) ^ dim.value) e

variable {r : Refinement α} {space : Space} {options : Options α} {dim : Dimension}
  {essential : List Nat}

theorem Admissible.complete (h : Admissible r space options dim) : r.Complete := by
  intro s hs
  rw [h.configured.checks.refinement_dim]
  exact (h.regular s hs).length_vertices

/-- An admissible input leads to contributions, under any schedule. -/
theorem Admissible.exists_collected (h : Admissible r space options dim) (schedule : Schedule) :
    ∃ source m, (accumulate schedule r space options).result = .ok (collected space dim m) ∧
      Contributing r space options dim source m := by
  have hstorable (dim' : Dimension) (hdim' : space.dim = dim'.value) :
      Storable r space options dim' := by
    obtain rfl : dim = dim' :=
      Dimension.eq_of_value_eq (h.configured.checks.space_dim.symm.trans hdim')
    exact h.storable
  obtain ⟨a, ha⟩ := exists_of_accepted
    (faultless_assemble schedule [] h.complete hstorable) h.configured h.regular h.accepts
  obtain ⟨b, hb, -⟩ := assembleWith_eq_ok.mp ha
  obtain ⟨dim', source, m, hcontributing, rfl⟩ := accumulate_spec hb
  obtain rfl : dim = dim' := h.configured.dim_unique hcontributing.accepted.1
  exact ⟨source, m, hb, hcontributing⟩

/-- What has been converted to a matrix was admissible. -/
theorem Contributing.admissible {convert : Conversion α} {source : JacobianSource α}
    {m : MetricArray α} {a : Csr α} {schedule : Schedule}
    (h : Contributing r space options dim source m)
    (hok : (assembleWith convert schedule r space essential options).result = .ok a) :
    Admissible r space options dim := by
  obtain ⟨hconfigured, hregular, haccepts⟩ := h.accepted
  have hr := h.checks.refinement_dim
  obtain ⟨b, hb, hfinalize⟩ := assembleWith_eq_ok.mp hok
  rw [accumulate_result] at hb
  obtain ⟨⟨s, m'⟩, hprepare, hb⟩ := bind_eq_ok.mp hb
  obtain ⟨tss, -, rfl⟩ := pushElements_eq_ok (inside_of_prepare hprepare) hb
  obtain ⟨_, -, hmetric⟩ := bind_eq_ok.mp hprepare
  obtain ⟨_, hmetric, -⟩ := bind_eq_ok.mp hmetric
  refine ⟨hconfigured, ⟨?_, fun hdim hplanar hnone => ?_, ?_⟩, hregular, haccepts⟩
  · exact Refinement.terms_le_of_evaluateMetric hr hmetric
  · rw [← hconfigured.subcells_eq]
    exact Refinement.jacobians_le_of_jacobianSource hr h.source_eq hdim hplanar hnone
  · exact Size.le_of_reserve (finalizeWith_eq_ok.mp hfinalize).1.1

/-- An assembly returns a matrix exactly when its input is admissible. -/
theorem exists_assembleWith_iff (convert : Conversion α) (schedule : Schedule)
    (essential : List Nat) :
    (∃ a, (assembleWith convert schedule r space essential options).result = .ok a) ↔
      ∃ dim, Admissible r space options dim := by
  constructor
  · rintro ⟨a, ha⟩
    obtain ⟨b, hb, -⟩ := assembleWith_eq_ok.mp ha
    obtain ⟨dim, source, m, hcontributing, -⟩ := accumulate_spec hb
    exact ⟨dim, hcontributing.admissible ha⟩
  · rintro ⟨dim, h⟩
    obtain ⟨source, m, hb, -⟩ := h.exists_collected schedule
    have hrows : space.numDofs + 1 ≤ Size.maxEntries := h.storable.rows_le
    have hreserve {n : Nat} (hn : n ≤ Size.maxEntries) : Size.reserve n = .ok () :=
      require_eq_ok.mpr (decide_eq_true hn)
    exact ⟨_, assembleWith_eq_ok.mpr ⟨_, hb, finalizeWith_eq_ok.mpr
      ⟨⟨hreserve hrows, hreserve (Nat.le_of_succ_le hrows)⟩, rfl⟩⟩⟩

end Assembly

end LowOrderRefinement
