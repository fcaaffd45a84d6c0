import LowOrderRefinement.Proofs.Assembly.Assembled
import LowOrderRefinement.Proofs.Errors.Refusals

/-! Assemblies break no requirement. When the vertices of all sub-cells are complete and
all arrays can be stored, every stage has a result or reports an error: the orders
with a kernel keep all sizes of an element small, sub-cells that are counted and do
not share a slot leave no slot free, and the arrays that are read have been filled. -/

namespace LowOrderRefinement

variable {α : Type}

/-! ### Sizes -/

namespace Size

theorem lt_limit_of_le {n : Nat} (h : n ≤ maxEntries) : n < limit :=
  Nat.lt_of_le_of_lt h (by decide)

theorem productFits_append (ns : List Nat) {n : Nat} (h : productFits ns = true)
    (hlt : ns.prod * n < limit) : productFits (ns ++ [n]) = true := by
  have hprod : ns.foldlM mul 1 = .ok ns.prod := product_of_fits h
  rw [productFits, product, List.foldlM_append, hprod, ok_bind, List.foldlM_cons,
    mul_eq_ok.mpr ⟨hlt, rfl⟩]
  rfl

theorem productFits_left (ns ms : List Nat) (h : productFits (ns ++ ms) = true) :
    productFits ns = true := by
  unfold productFits product at h ⊢
  rw [List.foldlM_append] at h
  cases hns : ns.foldlM mul 1 with
  | error e => rw [hns] at h; cases h
  | ok n => rfl

end Size

namespace Dimension

theorem pow_le_of_le (dim : Dimension) {n bound : Nat} (hbound : 0 < bound) (h : n ≤ bound) :
    n ^ dim.value ≤ bound ^ 3 :=
  (Nat.pow_le_pow_left h _).trans (Nat.pow_le_pow_right hbound (by cases dim <;> decide))

theorem elementDofs_of_le (dim : Dimension) {order : Nat} (h : order ≤ maxOrder) :
    dim.elementDofs order = .ok ((order + 1) ^ dim.value) := by
  have hle : order + 1 ≤ 17 := Nat.succ_le_succ h
  have hpow : (order + 1) ^ dim.value < Size.limit :=
    Nat.lt_of_le_of_lt (dim.pow_le_of_le (by decide) hle) (by decide)
  rw [elementDofs, Size.add_eq_ok.mpr ⟨Nat.lt_of_le_of_lt hle (by decide), rfl⟩, ok_bind,
    Size.pow_eq_ok.mpr ⟨hpow, rfl⟩]

theorem prod_terms (dim : Dimension) (perElement elements : Nat) :
    [dim.components, dim.vertices, perElement, elements].prod =
      dim.components * dim.vertices * (elements * perElement) := by
  simp only [List.prod_cons, List.prod_nil]
  ring

theorem productFits_terms (dim : Dimension) {perElement elements : Nat}
    (hper : perElement ≤ 16 ^ 3)
    (h : dim.components * dim.vertices * (elements * perElement) ≤ Size.maxEntries) :
    Size.productFits [dim.components, dim.vertices, perElement, elements] = true := by
  have hpair : Size.productFits [dim.components, dim.vertices] = true := by cases dim <;> decide
  have hle : dim.components * dim.vertices ≤ 48 := by cases dim <;> decide
  refine Size.productFits_append [dim.components, dim.vertices, perElement]
    (Size.productFits_append [dim.components, dim.vertices] hpair ?_) ?_
  · calc [dim.components, dim.vertices].prod * perElement
        ≤ 48 * 16 ^ 3 := Nat.mul_le_mul (by simpa using hle) hper
      _ < Size.limit := by decide
  · refine Size.lt_limit_of_le (le_of_eq_of_le ?_ h)
    rw [← dim.prod_terms]
    simp [Nat.mul_assoc]

theorem prod_factors (dim : Dimension) (subcells : Nat) :
    [dim.vertices, dim.value, dim.value, subcells].prod =
      dim.vertices * dim.value * dim.value * subcells := by
  simp only [List.prod_cons, List.prod_nil]
  ring

theorem productFits_factors (dim : Dimension) {subcells : Nat}
    (h : dim.vertices * dim.value * dim.value * subcells < Size.limit) :
    Size.productFits [dim.vertices, dim.value, dim.value, subcells] = true := by
  refine Size.productFits_append [dim.vertices, dim.value, dim.value] ?_ ?_
  · cases dim <;> decide
  · simpa [Nat.mul_assoc] using h

end Dimension

theorem MetricArray.fits_of_storage {components points subcells elements n : Nat}
    (h : storage components points subcells elements = .ok n) :
    Size.productFits [components, points, subcells, elements] = true := by
  obtain ⟨layout, hlayout, -⟩ := bind_eq_ok.mp h
  exact Layout.fits_of_firstIndexFastest hlayout

namespace Outcome

theorem Faultless.discard {β : Type} {x : Outcome α β} (h : Faultless x) :
    Faultless (discard x) :=
  fun c hc => h c (discard_eq_error.mp hc)

end Outcome

/-! ### The checks -/

namespace Space

theorem faultless_checkOrdering (nodes : Nat) (ordering : Array Nat) :
    (checkOrdering nodes ordering : Outcome α Unit).Faultless := by
  refine (Outcome.faultless_agree _ _ _).bind fun _ _ => Outcome.Faultless.discard ?_
  refine Outcome.Faultless.foldlM (fun seen entry _ => ?_) _
  unfold markEntry
  split
  · exact Outcome.faultless_ok _
  · exact Outcome.faultless_refuse _

theorem faultless_gather (space : Space) (nodes e : Nat) :
    (space.gather nodes e : Outcome α (Array Nat)).Faultless := by
  refine (Outcome.faultless_agree _ _ _).bind fun _ _ => ?_
  split
  · exact Outcome.faultless_refuse _
  · exact Outcome.faultless_ok _

end Space

namespace Assembly

variable [Scalar α] {r : Refinement α} {space : Space} {options : Options α} {dim : Dimension}

theorem faultless_setup (r : Refinement α) (space : Space) : (setup r space).Faultless := by
  unfold setup
  split
  next => exact (Outcome.faultless_refuse _).bind fun _ h => by cases h
  next =>
    refine (Outcome.faultless_dimension _).bind fun dim _ => ?_
    refine (Outcome.faultless_agree _ _ _).bind fun _ _ => ?_
    refine Outcome.Faultless.bind ?_ fun kernel hkernel => ?_
    · unfold Kernel.select
      split
      · exact Outcome.faultless_refuse _
      · exact Outcome.faultless_ok _
    have hnodes := dim.elementDofs_of_le (select_eq_ok.mp hkernel).2.1
    exact (Outcome.faultless_lift hnodes).bind fun _ _ =>
      (Space.faultless_checkOrdering _ _).bind fun _ _ => Outcome.faultless_ok _

omit [Scalar α] in
/-- A place in an element is one of at most 4096. -/
theorem Checks.pow_le (h : Checks r space dim) : space.order ^ dim.value ≤ 16 ^ 3 :=
  dim.pow_le_of_le (by decide) h.order_le

omit [Scalar α] in
theorem Storable.total_le (h : Storable r space options dim) :
    space.elements * space.order ^ dim.value ≤ Size.maxEntries :=
  (Nat.le_mul_of_pos_left _ (by cases dim <;> decide)).trans h.terms_le

omit [Scalar α] in
theorem Checks.subcells_eq_ok (h : Checks r space dim) :
    dim.subcells space.order = .ok (space.order ^ dim.value) :=
  Size.pow_eq_ok.mpr ⟨Nat.lt_of_le_of_lt h.pow_le (by decide), rfl⟩

/-! ### The slots -/

omit [Scalar α] in
theorem faultless_checkGeometry (s : Nat) : (r.checkGeometry dim s).Faultless := by
  unfold Refinement.checkGeometry
  split
  · exact Outcome.faultless_ok _
  · exact Outcome.faultless_refuse _

omit [Scalar α] in
theorem faultless_occupy {elements perElement : Nat} (slots : Array (Option Nat)) (s : Nat) :
    (r.occupy dim elements perElement slots s).Faultless := by
  refine (faultless_checkGeometry s).bind fun _ _ => ?_
  dsimp only
  split
  · exact Outcome.faultless_refuse _
  · split
    · exact Outcome.faultless_refuse _
    · split
      · exact Outcome.faultless_ok _
      · exact Outcome.faultless_refuse _

end Assembly

namespace Refinement

/-- The metric terms of elements of the given order can be stored, and so can the Jacobians that
are computed first if need be. -/
structure TermsStorable (r : Refinement α) (dim : Dimension) (order elements : Nat)
    (options : Options α) : Prop where
  terms : ∃ n,
    MetricArray.storage dim.components dim.vertices (order ^ dim.value) elements = .ok n
  jacobians_le : dim = .two → options.planarJacobians = .geometricFactors → r.factors = none →
    16 * (elements * order ^ dim.value) ≤ Size.maxEntries

theorem subcells_eq_ok_of_slots {r : Refinement α} {dim : Dimension} {order elements : Nat}
    {table : Array Nat} (h : r.slots dim order elements = .ok table) :
    dim.subcells order = .ok (order ^ dim.value) := by
  obtain ⟨perElement, hper, -⟩ := bind_eq_ok.mp h
  obtain ⟨hlt, -⟩ := Size.pow_eq_ok.mp (lift_eq_ok.mp hper)
  exact Size.pow_eq_ok.mpr ⟨hlt, rfl⟩

/-- As many sub-cells as slots, no two of them in one slot, take every slot. -/
theorem Filled.all_isSome {r : Refinement α} {dim : Dimension} {elements perElement : Nat}
    {slots : Array (Option Nat)}
    (h : r.Filled dim elements perElement (elements * perElement) slots) :
    slots.all Option.isSome = true := by
  have hnodup : ((List.range (elements * perElement)).map fun s =>
      slotOf perElement (r.embedding s)).Nodup := by
    refine List.Nodup.map_on (fun s hs t ht heq => ?_) List.nodup_range
    exact h.eq_of_slotOf_eq (List.mem_range.mp hs) (List.mem_range.mp ht) heq
  have hsubset : ((List.range (elements * perElement)).map fun s =>
      slotOf perElement (r.embedding s)) ⊆ List.range (elements * perElement) := by
    intro slot hslot
    obtain ⟨s, hs, rfl⟩ := List.mem_map.mp hslot
    have hplaced := h.placed s (List.mem_range.mp hs)
    exact List.mem_range.mpr (slotOf_lt hplaced.offset_lt hplaced.parent_lt)
  -- distinct slots in range that are as many as all slots are all of them
  have hperm := (List.subperm_of_subset hnodup hsubset).perm_of_length_le (by simp)
  rw [Array.all_eq_true]
  intro slot hslot
  rw [h.size_slots] at hslot
  obtain ⟨s, hs, rfl⟩ := List.mem_map.mp (hperm.mem_iff.mpr (List.mem_range.mpr hslot))
  have hget := (h.holds _ s).mpr ⟨List.mem_range.mp hs, rfl⟩
  rw [Array.getD_eq_getD_getElem?, Array.getElem?_eq_getElem (h.size_slots ▸ hslot)] at hget
  simp only [Option.getD_some] at hget
  rw [hget]
  rfl

/-- When the number of slots is a size, no requirement is broken in filling them. -/
theorem faultless_slots {r : Refinement α} {dim : Dimension} {order elements : Nat}
    (hper : order ^ dim.value < Size.limit) (htotal : elements * order ^ dim.value < Size.limit) :
    (r.slots dim order elements).Faultless := by
  rw [slots_eq r hper htotal]
  refine (Outcome.faultless_agree _ _ _).bind fun _ hsubcells => ?_
  refine (Outcome.Faultless.foldlM (fun slots s _ => Assembly.faultless_occupy slots s) _).bind
    fun filled hfilled => ?_
  have hfill := filled_range hfilled
  rw [← agree_eq_ok.mp hsubcells] at hfill
  have hall : require (filled.all Option.isSome) .outOfRange = .ok () :=
    require_eq_ok.mpr hfill.all_isSome
  exact (Outcome.faultless_lift hall).bind fun _ _ => Outcome.faultless_ok _

end Refinement

namespace Assembly

variable [Scalar α] {r : Refinement α} {space : Space} {options : Options α} {dim : Dimension}

omit [Scalar α] in
theorem faultless_slots (hchecks : Checks r space dim) (h : Storable r space options dim) :
    (r.slots dim space.order space.elements).Faultless :=
  Refinement.faultless_slots (Nat.lt_of_le_of_lt hchecks.pow_le (by decide))
    (Size.lt_limit_of_le h.total_le)

/-! ### The Jacobians -/

theorem exists_jacobianRows (hr : r.dim = dim.value) (hcomplete : r.Complete) {s : Nat}
    (hs : s < r.subcells) : ∃ rows, r.jacobianRows dim s = .ok rows := by
  have hlength := hcomplete s hs
  rw [hr] at hlength
  cases dim with
  | two =>
    obtain ⟨cell, hcell⟩ := Quadrilateral.decodes.exists_ok hlength
    exact ⟨_, bind_eq_ok.mpr ⟨cell, hcell, rfl⟩⟩
  | three =>
    obtain ⟨cell, hcell⟩ := Hexahedron.decodes.exists_ok hlength
    exact ⟨_, bind_eq_ok.mpr ⟨cell, hcell, rfl⟩⟩

/-- Factors whose entries can be stored are computed sub-cell by sub-cell. -/
theorem computeFactors_of_le (hr : r.dim = dim.value)
    (h : dim.vertices * dim.value * dim.value * r.subcells ≤ Size.maxEntries) :
    r.computeFactors = (List.range r.subcells).mapM (r.subcellEntries dim) >>= fun cells =>
      GeometricFactors.ofEntries r.dim r.subcells cells.flatten.toArray := by
  have hdim : (Outcome.dimension r.dim : Outcome α Dimension) = .ok dim := dimension_eq_ok.mpr hr
  have hfits := dim.productFits_factors (Size.lt_limit_of_le h)
  have hlayout : Layout.firstIndexFastest [dim.vertices, dim.value, dim.value, r.subcells] =
      .ok ⟨[dim.vertices, dim.value, dim.value, r.subcells], hfits⟩ :=
    Layout.firstIndexFastest_eq_ok.mpr rfl
  have hreserve : Size.reserve [dim.vertices, dim.value, dim.value, r.subcells].prod = .ok () :=
    require_eq_ok.mpr (decide_eq_true (dim.prod_factors r.subcells ▸ h))
  rw [Refinement.computeFactors, hdim, ok_bind, hlayout, lift_ok, ok_bind, Layout.length_eq,
    lift_ok, ok_bind, hreserve, lift_ok, ok_bind]
  rfl

theorem faultless_computeFactors (hr : r.dim = dim.value) (hcomplete : r.Complete)
    (h : dim.vertices * dim.value * dim.value * r.subcells ≤ Size.maxEntries) :
    r.computeFactors.Faultless := by
  rw [computeFactors_of_le hr h]
  refine Outcome.Faultless.bind (Outcome.Faultless.mapM fun s hs => ?_) fun cells hcells => ?_
  · obtain ⟨rows, hrows⟩ := exists_jacobianRows hr hcomplete (List.mem_range.mp hs)
    exact (faultless_checkGeometry s).bind fun _ _ =>
      (Outcome.faultless_lift hrows).bind fun _ _ => Outcome.faultless_ok _
  · obtain ⟨f, hf⟩ := exists_ofEntries_computed hr
      (dim.productFits_factors (Size.lt_limit_of_le h)) hcells
    rw [hf]
    exact Outcome.faultless_ok f

theorem faultless_jacobianSource (hr : r.dim = dim.value) (hcomplete : r.Complete)
    (hle : dim = .two → options.planarJacobians = .geometricFactors → r.factors = none →
      16 * r.subcells ≤ Size.maxEntries) : (r.jacobianSource dim options).Faultless := by
  cases dim with
  | three => exact Outcome.faultless_ok _
  | two =>
    cases hplanar : options.planarJacobians with
    | vertices =>
      simp only [Refinement.jacobianSource.eq_def, hplanar]
      exact Outcome.faultless_ok _
    | geometricFactors =>
      simp only [Refinement.jacobianSource.eq_def, hplanar]
      split
      next =>
        exact (Outcome.faultless_agree _ _ _).bind fun _ _ =>
          (Outcome.faultless_agree _ _ _).bind fun _ _ => Outcome.faultless_ok _
      next hnone =>
        exact (faultless_computeFactors hr hcomplete (hle rfl hplanar hnone)).bind fun _ _ =>
          Outcome.faultless_ok _

/-! ### The metric terms -/

theorem faultless_allTerms (schedule : Schedule) (hr : r.dim = dim.value)
    (hcomplete : r.Complete) {source : JacobianSource α} (hsource : source.Suits r)
    {elements perElement : Nat} {table : Array Nat}
    (htable : r.Slotted dim elements perElement table) (parallel : Bool) :
    (r.allTerms schedule dim source perElement table parallel).Faultless := by
  have hslot (slot : Nat) (hmem : slot ∈ List.range table.size) :
      (r.slotTerms dim source perElement table slot).Faultless := by
    obtain ⟨s, hs, hget, -⟩ := htable.exists_getElem slot (List.mem_range.mp hmem)
    exact (Outcome.faultless_lift (entryAt_eq_ok.mpr hget)).bind fun s' hs' => by
      obtain rfl : s = s' :=
        Option.some.inj (hget.symm.trans (entryAt_eq_ok.mp (lift_eq_ok.mp hs')))
      exact Refinement.faultless_subcellTerms hr hcomplete hsource _ hs
  cases parallel with
  | false => exact Outcome.Faultless.mapM hslot
  | true =>
    intro c h
    obtain ⟨slot, hmem, hfails⟩ :=
      schedule.exists_of_leastFailure_eq_error _ List.pairwise_lt_range h
    exact hslot slot hmem c hfails

theorem exists_ofEntries (schedule : Schedule) {source : JacobianSource α} {elements perElement : Nat}
    {table : Array Nat} {n : Nat}
    (hstorage : MetricArray.storage dim.components dim.vertices perElement elements = .ok n)
    (htable : r.Slotted dim elements perElement table) {parallel : Bool} {terms : List (List α)}
    (hterms : r.allTerms schedule dim source perElement table parallel = .ok terms) :
    ∃ m, MetricArray.ofEntries dim.components dim.vertices perElement elements
      terms.flatten.toArray = .ok m := by
  have hserial : (List.range table.size).mapM (r.slotTerms dim source perElement table) =
      .ok terms := by
    cases parallel with
    | false => exact hterms
    | true => exact (Refinement.allTerms_parallel_eq_ok schedule schedule).mp hterms
  have hsize : terms.flatten.toArray.size =
      [dim.components, dim.vertices, perElement, elements].prod := by
    rw [List.size_toArray, length_flatten_blocks (Refinement.length_of_slotTerms hserial),
      length_of_mapM_eq_ok hserial, List.length_range, htable.size_table, dim.prod_terms,
      Nat.mul_comm]
  rw [MetricArray.ofEntries, dif_pos ⟨MetricArray.fits_of_storage hstorage, hsize⟩]
  exact ⟨_, rfl⟩

omit [Scalar α] in
theorem Storable.termsStorable (hchecks : Checks r space dim) (h : Storable r space options dim) :
    r.TermsStorable dim space.order space.elements options := by
  have hfits := dim.productFits_terms hchecks.pow_le h.terms_le
  have hreserve : Size.reserve
      [dim.components, dim.vertices, space.order ^ dim.value, space.elements].prod = .ok () :=
    require_eq_ok.mpr (decide_eq_true ((dim.prod_terms _ _).trans_le h.terms_le))
  refine ⟨?_, h.jacobians_le⟩
  rw [MetricArray.storage, Layout.firstIndexFastest, dif_pos hfits, ok_bind, Layout.length_eq,
    ok_bind, hreserve]
  exact ⟨_, rfl⟩

/-- Metric terms that can be stored are evaluated without a fault. -/
theorem faultless_evaluateMetric (schedule : Schedule) {order elements : Nat}
    (hr : r.dim = dim.value) (hslots : (r.slots dim order elements).Faultless)
    (hcomplete : r.Complete) (h : r.TermsStorable dim order elements options) :
    Outcome.Faultless (r.evaluateMetric schedule order elements options).result := by
  have hdim : (Outcome.dimension r.dim : Outcome α Dimension) = .ok dim := dimension_eq_ok.mpr hr
  rw [Refinement.evaluateMetric_result, hdim, ok_bind]
  refine hslots.bind fun table htable => ?_
  have hslotted := Refinement.slots_spec htable
  have hle (hd : dim = .two) (hplanar : options.planarJacobians = .geometricFactors)
      (hnone : r.factors = none) : 16 * r.subcells ≤ Size.maxEntries := by
    rw [hslotted.subcells_eq]
    exact h.jacobians_le hd hplanar hnone
  refine (faultless_jacobianSource hr hcomplete hle).bind fun source hsource => ?_
  obtain ⟨n, hn⟩ := h.terms
  rw [Refinement.subcells_eq_ok_of_slots htable, lift_ok, ok_bind, hn]
  refine (Outcome.Faultless.discard (Outcome.faultless_ok n)).bind fun _ _ => ?_
  refine (faultless_allTerms schedule hr hcomplete
    (Refinement.suits_of_jacobianSource hr hsource) hslotted _).bind fun terms hterms => ?_
  obtain ⟨m, hm⟩ := exists_ofEntries schedule hn hslotted hterms
  exact Outcome.faultless_lift hm

/-! ### The matrix -/

theorem exists_finalize {b : Builder α} (essential : List Nat)
    (hrows : b.nrows + 1 ≤ Size.maxEntries) (hcols : b.ncols ≤ Size.maxEntries) :
    ∃ a, (b.finalize essential).result = .ok a := by
  have hrows : Size.reserve (b.nrows + 1) = .ok () := require_eq_ok.mpr (decide_eq_true hrows)
  have hcols : Size.reserve b.ncols = .ok () := require_eq_ok.mpr (decide_eq_true hcols)
  rw [finalize_result, hrows, hcols]
  exact ⟨_, rfl⟩

/-- An assembly of complete sub-cells whose arrays can be stored breaks no requirement. -/
theorem faultless_assemble (schedule : Schedule) (essential : List Nat) (hcomplete : r.Complete)
    (h : ∀ dim : Dimension, space.dim = dim.value → Storable r space options dim) :
    Outcome.Faultless (assemble schedule r space essential options).result := by
  rw [assemble_result]
  refine Outcome.Faultless.bind ?_ fun x hprepare => ?_
  · refine (faultless_setup r space).bind fun s hs => ?_
    obtain ⟨dim, hchecks, rfl⟩ := setup_spec hs
    have hstorable := h dim hchecks.space_dim
    exact (faultless_evaluateMetric schedule hchecks.refinement_dim
      (faultless_slots hchecks hstorable) hcomplete (hstorable.termsStorable hchecks)).bind
      fun _ _ => Outcome.faultless_ok _
  · obtain ⟨s, m⟩ := x
    obtain ⟨dim, source, hchecks, rfl, -, heval⟩ := prepare_spec hprepare
    refine Outcome.Faultless.bind (fun c hc => ?_) fun b hb => ?_
    · obtain ⟨e, he, hfails⟩ := exists_of_pushElements_eq_error (inside_of_prepare hprepare) hc
      rw [Setup.ofOrder, Space.contributions_eq hchecks heval he, map_eq_error] at hfails
      exact Space.faultless_gather space _ e c hfails
    · obtain ⟨tss, -, rfl⟩ := pushElements_eq_ok (inside_of_prepare hprepare) hb
      obtain ⟨a, ha⟩ := exists_finalize (b := (Builder.empty space.numDofs space.numDofs).accept
        tss.flatten) essential (h dim hchecks.space_dim).rows_le
        (Nat.le_of_succ_le (h dim hchecks.space_dim).rows_le)
      exact Outcome.faultless_lift ha

end Assembly

end LowOrderRefinement
