import LowOrderRefinement.Proofs.Assembly.Concurrency
import LowOrderRefinement.Proofs.Evaluation.Regularity

/-! Every error that an assembly reports stands for the defect that it names. Each stage
reports only defects of the input that it reads, and a stage is reached only when
the stages before it have accepted the input; so the geometry is reported for
accepted configurations only, and an element only when all sub-cells are regular. -/

namespace LowOrderRefinement

variable {α : Type}

/-! ### The checks -/

theorem Outcome.reports_dimension {D : Error α → Prop} {d : Nat}
    (h : (∀ dim : Dimension, d ≠ dim.value) → D (.unsupportedDimension d)) :
    (dimension d : Outcome α Dimension).Reports D := by
  unfold dimension
  split
  · exact reports_ok _
  next hnone =>
    refine reports_refuse (h fun dim hdim => ?_)
    rw [Dimension.ofNat?_eq_some.mpr hdim] at hnone
    cases hnone

theorem Outcome.Reports.discard {D : Error α → Prop} {β : Type} {x : Outcome α β}
    (h : x.Reports D) : Outcome.Reports D (discard x) :=
  fun cause hcause => h cause (discard_eq_error.mp hcause)

theorem Layout.fits_of_firstIndexFastest {shape : List Nat} {layout : Layout}
    (h : firstIndexFastest shape = .ok layout) : Size.productFits shape = true :=
  firstIndexFastest_eq_ok.mp h ▸ layout.fits

namespace Space

theorem reports_checkEntries (nodes : Nat) (ordering : List Nat) :
    (checkEntries nodes ordering : Outcome α Unit).Reports fun cause =>
      ∃ index, cause = .invalidOrdering index := by
  have hmark (seen : Array Bool) (entry : Nat × Nat) :
      (markEntry seen entry : Outcome α (Array Bool)).Reports fun cause =>
        ∃ index, cause = .invalidOrdering index := by
    unfold markEntry
    split
    · exact Outcome.reports_ok _
    · exact Outcome.reports_refuse ⟨entry.2, rfl⟩
  exact (Outcome.Reports.foldlM (fun seen entry _ => hmark seen entry) _).discard

end Space

namespace Assembly

variable [Scalar α] {r : Refinement α} {space : Space} {options : Options α} {dim : Dimension}

theorem reports_checkOrdering (hspace : space.dim = dim.value) :
    (Space.checkOrdering ((space.order + 1) ^ dim.value) space.ordering : Outcome α Unit).Reports
      (Defect r space options) := by
  refine Outcome.Reports.bind (Outcome.reports_agree fun hne => ⟨hne, ?_, rfl⟩) fun _ hsize => ?_
  · rw [hspace]
  · intro cause h
    obtain ⟨index, rfl⟩ := Space.reports_checkEntries _ _ cause h
    rw [Defect, hspace]
    intro hperm
    have hok : (Space.checkOrdering ((space.order + 1) ^ dim.value) space.ordering :
        Outcome α Unit) = .ok () := Space.checkOrdering_eq_ok.mpr hperm
    rw [Space.checkOrdering, hsize, ok_bind, h] at hok
    cases hok

theorem reports_setup (r : Refinement α) (space : Space) (options : Options α) :
    (setup r space).Reports (Defect r space options) := by
  unfold setup
  split
  next hbasis => exact (Outcome.reports_refuse hbasis).bind fun _ h => by cases h
  next =>
    refine Outcome.Reports.bind (Outcome.reports_dimension fun hnone => ⟨rfl, hnone⟩)
      fun dim hdim => ?_
    rw [dimension_eq_ok] at hdim
    refine Outcome.Reports.bind (Outcome.reports_agree fun hne => ⟨hne, hdim.symm, rfl⟩)
      fun _ _ => ?_
    refine Outcome.Reports.bind ?_ fun kernel _ => ?_
    · unfold Kernel.select
      split
      next horder => exact Outcome.reports_refuse ⟨rfl, horder⟩
      next => exact Outcome.reports_ok _
    refine Outcome.Reports.bind (Outcome.reports_lift _) fun nodes hnodes => ?_
    simp only [lift_eq_ok, Dimension.elementDofs, bind_eq_ok, Size.add_eq_ok,
      Size.pow_eq_ok] at hnodes
    obtain ⟨_, ⟨-, rfl⟩, -, rfl⟩ := hnodes
    exact Outcome.Reports.bind (reports_checkOrdering hdim) fun _ _ => Outcome.reports_ok _

/-! ### The slots -/

omit [Scalar α] in
theorem reports_checkGeometry {D : Error α → Prop} {s : Nat}
    (h : (r.geometry s).fits dim = false → D (.unsupportedGeometry s)) :
    (r.checkGeometry dim s).Reports D := by
  unfold Refinement.checkGeometry
  split
  · exact Outcome.reports_ok _
  next hfits => exact Outcome.reports_refuse (h (by simpa using hfits))

theorem defect_of_geometry (hr : r.dim = dim.value) {s : Nat} (hs : s < r.subcells)
    (hfits : (r.geometry s).fits dim = false) :
    Defect r space options (.unsupportedGeometry s) := by
  refine ⟨hs, fun dim' hdim' => ?_⟩
  rwa [← Dimension.eq_of_value_eq (hr.symm.trans hdim')]

/-- A sub-cell is refused for its geometry, for a place that does not exist, or for a place that
an earlier sub-cell has taken. -/
theorem reports_occupy (hr : r.dim = dim.value) {s : Nat} {slots : Array (Option Nat)}
    (hfilled : r.Filled dim space.elements (space.order ^ dim.value) s slots)
    (hs : s < r.subcells) :
    (r.occupy dim space.elements (space.order ^ dim.value) slots s).Reports
      (Defect r space options) := by
  refine Outcome.Reports.bind (reports_checkGeometry (defect_of_geometry hr hs)) fun _ _ => ?_
  dsimp only
  split
  next hparent => exact Outcome.reports_refuse ⟨hs, hparent⟩
  next =>
    split
    next hoffset => exact Outcome.reports_refuse ⟨hs, by rw [EmbeddingDefective, hr]; exact hoffset⟩
    next hoffset =>
      split
      next => exact Outcome.reports_ok _
      next t ht =>
        obtain ⟨hlt, hslot⟩ := (hfilled.holds _ t).mp ht
        have hplace := Refinement.slotOf_inj (hfilled.placed t hlt).offset_lt
          (Nat.not_le.mp hoffset) hslot
        exact Outcome.reports_refuse ⟨hs, t, hlt, hplace⟩

theorem reports_slots (hr : r.dim = dim.value) :
    (r.slots dim space.order space.elements).Reports (Defect r space options) := by
  refine Outcome.Reports.bind (Outcome.reports_lift _) fun perElement hper => ?_
  obtain rfl := (Size.pow_eq_ok.mp (lift_eq_ok.mp hper)).2
  refine Outcome.Reports.bind (Outcome.reports_lift _) fun total htotal => ?_
  obtain rfl := (Size.mul_eq_ok.mp (lift_eq_ok.mp htotal)).2
  refine Outcome.Reports.bind (Outcome.reports_agree fun hne => ⟨hne, by rw [hr], rfl⟩)
    fun _ _ => ?_
  refine Outcome.Reports.bind (fun cause h => ?_) fun filled _ =>
    Outcome.Reports.bind (Outcome.reports_lift _) fun _ _ => Outcome.reports_ok _
  -- the sub-cells before the one that is refused are in their slots
  obtain ⟨s, hs, slots, hrun, hstep⟩ := foldlM_range_eq_error.mp h
  exact reports_occupy hr (Refinement.filled_range hrun) hs cause hstep

/-! ### The Jacobians -/

theorem size_computed {cells : List (List α)}
    (h : (List.range r.subcells).mapM (r.subcellEntries dim) = .ok cells) :
    cells.flatten.toArray.size = [dim.vertices, dim.value, dim.value, r.subcells].prod := by
  have hblocks : ∀ b ∈ cells, b.length = dim.value * (dim.value * dim.vertices) := by
    intro b hb
    obtain ⟨s, -, hs⟩ := exists_of_mem_of_mapM_eq_ok h hb
    obtain ⟨-, -, hs⟩ := bind_eq_ok.mp hs
    obtain ⟨rows, hrows, hs⟩ := bind_eq_ok.mp hs
    rw [← pure_eq_ok.mp hs, GeometricFactors.length_cellEntries,
      Refinement.length_jacobianRows (lift_eq_ok.mp hrows)]
  rw [List.size_toArray, length_flatten_blocks hblocks, length_of_mapM_eq_ok h, List.length_range]
  simp only [List.prod_cons, List.prod_nil]
  ring

theorem exists_ofEntries_computed (hr : r.dim = dim.value)
    (hfits : Size.productFits [dim.vertices, dim.value, dim.value, r.subcells] = true)
    {cells : List (List α)} (h : (List.range r.subcells).mapM (r.subcellEntries dim) = .ok cells) :
    ∃ f, GeometricFactors.ofEntries r.dim r.subcells cells.flatten.toArray = .ok f := by
  have hdim : (Outcome.dimension r.dim : Outcome α Dimension) = .ok dim := dimension_eq_ok.mpr hr
  rw [GeometricFactors.ofEntries, hdim, ok_bind]
  dsimp only
  rw [dif_pos hfits, dif_pos (size_computed h)]
  exact ⟨_, rfl⟩

theorem reports_computeFactors {D : Error α → Prop} (hr : r.dim = dim.value)
    (h : ∀ s < r.subcells, (r.geometry s).fits dim = false → D (.unsupportedGeometry s)) :
    r.computeFactors.Reports D := by
  have hdim : (Outcome.dimension r.dim : Outcome α Dimension) = .ok dim := dimension_eq_ok.mpr hr
  rw [Refinement.computeFactors, hdim, ok_bind]
  refine Outcome.Reports.bind (Outcome.reports_lift _) fun layout hlayout => ?_
  have hfits := Layout.fits_of_firstIndexFastest (lift_eq_ok.mp hlayout)
  refine Outcome.Reports.bind (Outcome.reports_lift _) fun length _ => ?_
  refine Outcome.Reports.bind (Outcome.reports_lift _) fun _ _ => ?_
  refine Outcome.Reports.bind (Outcome.Reports.mapM fun s hs => ?_) fun cells hcells => ?_
  · exact Outcome.Reports.bind (reports_checkGeometry (h s (List.mem_range.mp hs))) fun _ _ =>
      Outcome.Reports.bind (Outcome.reports_lift _) fun rows _ => Outcome.reports_ok _
  · obtain ⟨f, hf⟩ := exists_ofEntries_computed hr hfits hcells
    rw [hf]
    exact Outcome.reports_ok f

/-- The choice of Jacobians reports geometries, and sizes of stored factors. -/
theorem reports_jacobianSource {D : Error α → Prop} (hr : r.dim = dim.value)
    (hgeometry : ∀ s < r.subcells, (r.geometry s).fits dim = false → D (.unsupportedGeometry s))
    (hfactors : dim = .two → options.planarJacobians = .geometricFactors →
      ∀ factors, r.factors = some factors →
        (2 ≠ factors.dim.value → D (.mismatch .factorDimension 2 factors.dim.value)) ∧
        (r.subcells ≠ factors.subcells →
          D (.mismatch .factorSubcells r.subcells factors.subcells))) :
    (r.jacobianSource dim options).Reports D := by
  cases dim with
  | three => exact Outcome.reports_ok _
  | two =>
    cases hplanar : options.planarJacobians with
    | vertices =>
      simp only [Refinement.jacobianSource.eq_def, hplanar]
      exact Outcome.reports_ok _
    | geometricFactors =>
      simp only [Refinement.jacobianSource.eq_def, hplanar]
      split
      next factors hsome =>
        obtain ⟨hdim, hsubcells⟩ := hfactors rfl hplanar factors hsome
        exact Outcome.Reports.bind (Outcome.reports_agree hdim) fun _ _ =>
          Outcome.Reports.bind (Outcome.reports_agree hsubcells) fun _ _ => Outcome.reports_ok _
      next =>
        exact Outcome.Reports.bind (reports_computeFactors hr hgeometry) fun _ _ =>
          Outcome.reports_ok _

theorem reports_defective_jacobianSource (hr : r.dim = dim.value) :
    (r.jacobianSource dim options).Reports (Defect r space options) := by
  refine reports_jacobianSource hr (fun s hs => defect_of_geometry hr hs) ?_
  rintro rfl hplanar factors hsome
  exact ⟨fun hne => ⟨hne, hplanar, hr, rfl, factors, hsome, rfl⟩,
    fun hne => ⟨hne, hplanar, hr, rfl, factors, hsome, rfl⟩⟩

/-! ### The geometry -/

/-- An error of a sub-cell names the sub-cell, and its element if it is about a determinant. -/
theorem reports_subcellTerms (source : JacobianSource α) (parent s : Nat) :
    (r.subcellTerms dim source parent s).Reports fun cause =>
      (∃ point det, cause = .nonPositiveDeterminant parent s point det) ∨
        ∃ point, cause = .jacobianMismatch s point := by
  have haccept {β : Type} (point : Nat) (x : Except α β) :
      (Refinement.accept parent s point x).Reports fun cause =>
        (∃ point det, cause = .nonPositiveDeterminant parent s point det) ∨
          ∃ point, cause = .jacobianMismatch s point :=
    Refinement.reports_accept (fun det => .inl ⟨point, det, rfl⟩) x
  cases dim with
  | three =>
    refine Outcome.Reports.bind (Outcome.reports_lift _) fun cell _ => ?_
    exact Outcome.Reports.bind (Outcome.Reports.mapM fun x _ => haccept _ _) fun _ _ =>
      Outcome.reports_ok _
  | two =>
    refine Outcome.Reports.bind (Outcome.reports_lift _) fun cell _ => ?_
    refine Outcome.Reports.bind (Outcome.Reports.mapM fun x _ => ?_) fun _ _ =>
      Outcome.reports_ok _
    refine Outcome.Reports.bind ?_ fun j _ => haccept _ _
    cases source with
    | vertices => exact Outcome.reports_ok _
    | stored factors verify =>
      refine Outcome.Reports.bind (Outcome.reports_lift _) fun j _ => ?_
      cases verify with
      | none => exact Outcome.reports_ok _
      | some tolerance =>
        dsimp only
        split
        · exact Outcome.reports_ok _
        · exact Outcome.reports_refuse (.inr ⟨x.2, rfl⟩)

/-- The terms of all slots fail with an error of the sub-cell in one of the slots. -/
theorem reports_allTerms (schedule : Schedule) (hconfigured : Configured r space options dim)
    {source : JacobianSource α} (hsource : r.jacobianSource dim options = .ok source)
    {table : Array Nat}
    (htable : r.Slotted dim space.elements (space.order ^ dim.value) table) (parallel : Bool) :
    (r.allTerms schedule dim source (space.order ^ dim.value) table parallel).Reports
      (Defect r space options) := by
  have hslot (slot : Nat) (hlt : slot < table.size) :
      (r.slotTerms dim source (space.order ^ dim.value) table slot).Reports
        (Defect r space options) := by
    obtain ⟨s, hs, hget, rfl⟩ := htable.exists_getElem slot hlt
    rw [Refinement.slotTerms, entryAt_eq_ok.mpr hget, lift_ok, ok_bind,
      Refinement.slotOf_div (htable.placed s hs).offset_lt]
    intro cause h
    have hregular : ¬r.Regular dim options s := by
      rw [← Refinement.exists_subcellTerms hsource hconfigured.checks.refinement_dim hs
        (r.embedding s).parent, h]
      simp
    rcases reports_subcellTerms _ _ _ cause h with ⟨point, det, rfl⟩ | ⟨point, rfl⟩
    · exact ⟨rfl, hs, dim, hconfigured, hregular⟩
    · exact ⟨hs, dim, hconfigured, hregular⟩
  intro cause h
  cases parallel with
  | false =>
    exact Outcome.Reports.mapM (fun slot hmem => hslot slot (List.mem_range.mp hmem)) cause h
  | true =>
    obtain ⟨slot, hmem, hfails⟩ :=
      schedule.exists_of_leastFailure_eq_error _ List.pairwise_lt_range h
    exact hslot slot (List.mem_range.mp hmem) cause hfails

theorem reports_evaluateMetric (schedule : Schedule) (h : Checks r space dim) :
    Outcome.Reports (Defect r space options)
      (r.evaluateMetric schedule space.order space.elements options).result := by
  have hdim : (Outcome.dimension r.dim : Outcome α Dimension) = .ok dim :=
    dimension_eq_ok.mpr h.refinement_dim
  rw [Refinement.evaluateMetric_result, hdim, ok_bind]
  refine Outcome.Reports.bind (reports_slots h.refinement_dim) fun table htable => ?_
  have hslots := Refinement.slots_spec htable
  refine Outcome.Reports.bind (reports_defective_jacobianSource h.refinement_dim)
    fun source hsource => ?_
  refine Outcome.Reports.bind (Outcome.reports_lift _) fun perElement hper => ?_
  obtain rfl := (Size.pow_eq_ok.mp (lift_eq_ok.mp hper)).2
  refine Outcome.Reports.bind (Outcome.reports_lift _).discard fun _ _ => ?_
  have hconfigured := h.configured hslots.covers hsource
  exact Outcome.Reports.bind (reports_allTerms schedule hconfigured hsource hslots _)
    fun _ _ => Outcome.reports_lift _

/-! ### The elements -/

theorem reports_gather (h : Evaluable r space options) (hspace : space.dim = dim.value) {e : Nat}
    (he : e < space.elements) :
    (space.gather ((space.order + 1) ^ dim.value) e : Outcome α (Array Nat)).Reports
      (Defect r space options) := by
  refine Outcome.Reports.bind (Outcome.reports_agree fun hne =>
    ⟨hne, h, by rw [hspace], e, he, rfl⟩) fun _ _ => ?_
  split
  next dof hdof =>
    have hle : space.numDofs ≤ dof := by simpa using Array.find?_some hdof
    exact Outcome.reports_refuse ⟨h, he, Array.mem_of_find?_eq_some hdof, rfl, hle⟩
  next => exact Outcome.reports_ok _

omit [Scalar α] in
/-- The addition of elements fails with the failure of one of them. -/
theorem exists_of_pushElements_eq_error {schedule : Schedule} {parallel : Bool}
    {task : Nat → Outcome α (List (Triplet α))} {elements : Nat} {b : Builder α} {c : Failure α}
    (hinside : Inside b task (List.range elements))
    (h : pushElements schedule parallel task elements b = .error c) :
    ∃ e < elements, task e = .error c := by
  have hserial (h : pushInOrder task elements b = .error c) :
      ∃ e < elements, task e = .error c := by
    rw [pushInOrder_eq hinside, map_eq_error, mapM_range_eq_error] at h
    obtain ⟨e, he, hfails, -⟩ := h
    exact ⟨e, he, hfails⟩
  cases parallel with
  | false => exact hserial h
  | true =>
    by_cases hok : ∀ e < elements, ∃ ts, task e = .ok ts
    · exact hserial ((pushInBatches_of_ok schedule hinside hok).symm.trans h)
    · obtain ⟨e, c', hleast⟩ := exists_leastFailing hok
      obtain ⟨e', he', -, c'', hfails, herror⟩ := pushInBatches_of_error schedule hinside hleast
      cases herror.symm.trans h
      exact ⟨e', he', hfails⟩

/-- Every error that an assembly reports stands for the defect that it names. -/
theorem reports_assemble (schedule : Schedule) (r : Refinement α) (space : Space)
    (essential : List Nat) (options : Options α) :
    Outcome.Reports (Defect r space options)
      (assemble schedule r space essential options).result := by
  rw [assemble_result]
  refine Outcome.Reports.bind ?_ fun x hprepare => ?_
  · refine Outcome.Reports.bind (reports_setup r space options) fun s hs => ?_
    obtain ⟨dim, hchecks, rfl⟩ := setup_spec hs
    exact Outcome.Reports.bind (reports_evaluateMetric schedule hchecks) fun _ _ =>
      Outcome.reports_ok _
  · obtain ⟨s, m⟩ := x
    have hevaluable := evaluable_of_prepare hprepare
    refine Outcome.Reports.bind (fun cause hcause => ?_) fun b _ => Outcome.reports_lift _
    obtain ⟨e, he, hfails⟩ :=
      exists_of_pushElements_eq_error (inside_of_prepare hprepare) hcause
    obtain ⟨dim, source, hchecks, rfl, -, heval⟩ := prepare_spec hprepare
    rw [Setup.ofOrder, Space.contributions_eq hchecks heval he, map_eq_error] at hfails
    exact reports_gather hevaluable hchecks.space_dim he cause hfails

end Assembly

end LowOrderRefinement
