import LowOrderRefinement.Proofs.Errors.Faults

/-! The metric terms of a refinement, point by point. At a quadrature point of a sub-cell
the Jacobian that the options select is looked up, confirmed if need be, and only
then asked for its determinant. An evaluation of all terms, in order or concurrent,
stores what these points give, or ends with the failure of the first point that is
refused: slots come before points, and the slot of a sub-cell is not its number. -/

namespace LowOrderRefinement

variable {α : Type}

theorem mapM_zipIdx {ε β γ δ : Type} {f : β × Nat → Except ε γ} {g : Nat → Except ε δ}
    {h : γ → δ} {xs : List β} {start : Nat}
    (hstep : ∀ i x, xs[i]? = some x → g (start + i) = (f (x, start + i)).map h) :
    (List.range' start xs.length).mapM g = ((xs.zipIdx start).mapM f).map (List.map h) := by
  induction xs generalizing start with
  | nil => rfl
  | cons x xs ih =>
    have hrest : (List.range' (start + 1) xs.length).mapM g =
        ((xs.zipIdx (start + 1)).mapM f).map (List.map h) := by
      refine ih fun i y hy => ?_
      have hstep := hstep (i + 1) y hy
      rwa [show start + (i + 1) = start + 1 + i by omega] at hstep
    have hfirst : g start = (f (x, start)).map h := hstep 0 x rfl
    rw [List.length_cons, List.range'_succ, List.zipIdx_cons, List.mapM_cons, List.mapM_cons,
      hfirst, hrest]
    cases f (x, start) with
    | error e => rfl
    | ok y => cases (xs.zipIdx (start + 1)).mapM f <;> rfl

/-- A term is found among those of its element, sub-cell by sub-cell and point by point. -/
theorem MetricArray.get_eq_ok (m : MetricArray α) {c q cell element : Nat}
    (hc : c < m.components) (hq : q < m.points) (hcell : cell < m.subcells)
    (helement : element < m.elements) {x : α} :
    m.get [c, q, cell, element] = .ok x ↔
      (m.terms element)[cell * (m.components * m.points) + (q * m.components + c)]? = some x := by
  have hbox : Lattice.inBox [c, q, cell, element] m.layout.shape := by
    simp [m.shape_layout, Lattice.inBox, *]
  have hplace : Lattice.flatten [c, q, cell, element] m.layout.shape = element * m.elementStride +
      (cell * (m.components * m.points) + (q * m.components + c)) := by
    simp only [m.shape_layout, Lattice.flatten, elementStride]
    ring
  have hpoint : q * m.components + c < m.components * m.points := by
    rw [Nat.mul_comm m.components]
    exact Lattice.place_lt hq hc
  have hlt : cell * (m.components * m.points) + (q * m.components + c) < m.elementStride := by
    rw [elementStride, Nat.mul_comm _ m.subcells]
    exact Lattice.place_lt hcell hpoint
  rw [get, m.layout.offset_eq_ok.mpr ⟨hbox, rfl⟩, ok_bind, entryAt_eq_ok, hplace, terms,
    Array.getElem?_extract, if_pos]
  have hstop := m.succ_mul_elementStride_le helement
  rw [Nat.succ_mul] at hstop ⊢
  omega

namespace Refinement

variable [Scalar α] {r : Refinement α} {dim : Dimension} {options : Options α}

/-! ### One point -/

/-- The metric terms of a sub-cell at a quadrature point, from the Jacobian that the options select
and the weight of the point. A Jacobian that is not confirmed is refused whatever its
determinant. -/
def pointTerms (r : Refinement α) (dim : Dimension) (options : Options α) (s q : Nat) :
    Outcome α (List α) :=
  match dim with
  | .two => do
    let cell ← r.quadrilateral s
    let (weight, ξ) ← entryAt Quadrature.square.toArray q
    let j ← r.planarJacobian options cell s q ξ
    if confirms options j (cell.jacobian ξ) then
      return (← accept (r.embedding s).parent s q (Metric.planar j weight)).toList
    else .refuse (.jacobianMismatch s q)
  | .three => do
    let cell ← r.hexahedron s
    let (weight, ξ) ← entryAt Quadrature.cube.toArray q
    return (← accept (r.embedding s).parent s q (Metric.solid (cell.jacobian ξ) weight)).toList

theorem length_pointTerms {s q : Nat} {terms : List α}
    (h : r.pointTerms dim options s q = .ok terms) : terms.length = dim.components := by
  cases dim with
  | two =>
    obtain ⟨cell, -, h⟩ := bind_eq_ok.mp h
    obtain ⟨point, -, h⟩ := bind_eq_ok.mp h
    obtain ⟨j, -, h⟩ := bind_eq_ok.mp h
    split at h
    · obtain ⟨m, -, h⟩ := bind_eq_ok.mp h
      rw [← pure_eq_ok.mp h]
      simp [Sym2.toList, Dimension.components, Dimension.value]
    · cases h
  | three =>
    obtain ⟨cell, -, h⟩ := bind_eq_ok.mp h
    obtain ⟨point, -, h⟩ := bind_eq_ok.mp h
    obtain ⟨m, -, h⟩ := bind_eq_ok.mp h
    rw [← pure_eq_ok.mp h]
    simp [Sym3.toList, Dimension.components, Dimension.value]

/-- A point that is refused is named by the error, with its sub-cell and, where the determinant is
at fault, the element of the sub-cell. -/
theorem reports_pointTerms (s q : Nat) :
    (r.pointTerms dim options s q).Reports fun cause =>
      cause = .jacobianMismatch s q ∨
        ∃ det, cause = .nonPositiveDeterminant (r.embedding s).parent s q det := by
  cases dim with
  | two =>
    refine Outcome.Reports.bind (Outcome.reports_lift _) fun cell _ => ?_
    refine Outcome.Reports.bind (Outcome.reports_lift _) fun point _ => ?_
    refine Outcome.Reports.bind (Outcome.reports_lift _) fun j _ => ?_
    split
    · exact Outcome.Reports.bind (reports_accept (fun det => .inr ⟨det, rfl⟩) _) fun _ _ =>
        Outcome.reports_ok _
    · exact Outcome.reports_refuse (.inl rfl)
  | three =>
    refine Outcome.Reports.bind (Outcome.reports_lift _) fun cell _ => ?_
    refine Outcome.Reports.bind (Outcome.reports_lift _) fun point _ => ?_
    exact Outcome.Reports.bind (reports_accept (fun det => .inr ⟨det, rfl⟩) _) fun _ _ =>
      Outcome.reports_ok _

/-- The Jacobians that an evaluation uses, with their refusals, are those that the options
select. -/
theorem planar_eq {source : JacobianSource α}
    (hsource : r.jacobianSource .two options = .ok source) (hr : r.dim = 2) {s : Nat}
    (hs : s < r.subcells) {cell : Quadrilateral α} (hcell : r.quadrilateral s = .ok cell)
    {q : Nat} {weight : α} {ξ : Vec2 α} (hq : Quadrature.square[q]? = some (weight, ξ)) :
    source.planar cell s q ξ = (do
      let j ← r.planarJacobian options cell s q ξ
      if confirms options j (cell.jacobian ξ) then return j
      else .refuse (.jacobianMismatch s q)) := by
  cases hplanar : options.planarJacobians with
  | vertices =>
    simp only [jacobianSource.eq_def, hplanar, Except.ok.injEq] at hsource
    subst hsource
    simp only [JacobianSource.planar, planarJacobian, confirms, hplanar, lift_ok, ok_bind, if_true]
    rfl
  | geometricFactors =>
    have hstored (factors : GeometricFactors α) :
        (JacobianSource.stored factors options.verify).planar cell s q ξ = (do
          let j ← factors.planar s q
          if confirms options j (cell.jacobian ξ) then return j
          else .refuse (.jacobianMismatch s q)) := by
      simp only [JacobianSource.planar, confirms, hplanar]
      cases options.verify <;> simp
    simp only [jacobianSource.eq_def, hplanar] at hsource
    cases hfactors : r.factors with
    | some factors =>
      simp only [hfactors, bind_eq_ok, agree_eq_ok, exists_const, pure_eq_ok] at hsource
      obtain ⟨-, -, rfl⟩ := hsource
      simp only [hstored, planarJacobian, hplanar, hfactors]
    | none =>
      simp only [hfactors] at hsource
      obtain ⟨factors, hcompute, hsource⟩ := bind_eq_ok.mp hsource
      obtain rfl := pure_eq_ok.mp hsource
      have hdim : factors.dim = .two := dim_of_computeFactors hcompute hr
      simp only [hstored, planarJacobian, hplanar, hfactors,
        factors.planar_of_computeFactors hcompute hdim hs hcell hq]

theorem pointTerms_two {source : JacobianSource α}
    (hsource : r.jacobianSource .two options = .ok source) (hr : r.dim = 2) {s : Nat}
    (hs : s < r.subcells) {cell : Quadrilateral α} (hcell : r.quadrilateral s = .ok cell)
    {q : Nat} {weight : α} {ξ : Vec2 α} (hq : Quadrature.square[q]? = some (weight, ξ)) :
    r.pointTerms .two options s q = Except.map Sym2.toList (do
      let j ← source.planar cell s q ξ
      accept (r.embedding s).parent s q (Metric.planar j weight)) := by
  rw [pointTerms, hcell, lift_ok, ok_bind, entryAt_toArray hq, lift_ok, ok_bind,
    planar_eq hsource hr hs hcell hq]
  dsimp only
  cases r.planarJacobian options cell s q ξ with
  | error c => rfl
  | ok j =>
    rw [lift_ok, ok_bind, ok_bind]
    split
    · exact bind_pure_comp _ _
    · rfl

theorem pointTerms_three {s : Nat} {cell : Hexahedron α}
    (hcell : r.hexahedron s = .ok cell) {q : Nat} {weight : α} {ξ : Vec3 α}
    (hq : Quadrature.cube[q]? = some (weight, ξ)) :
    r.pointTerms .three options s q = Except.map Sym3.toList
      (accept (r.embedding s).parent s q (Metric.solid (cell.jacobian ξ) weight)) := by
  rw [pointTerms, hcell, lift_ok, ok_bind, entryAt_toArray hq, lift_ok, ok_bind]
  exact bind_pure_comp _ _

omit [Scalar α] in
/-- Where the points of a cell are visited in order, and the first one fails if there is no cell,
the terms of the cell are those of the points. -/
theorem terms_eq_points {β γ σ : Type} {cell : Checked β} {rule : List γ}
    {metric : β → γ × Nat → Outcome α σ} {toList : σ → List α} {point : Nat → Outcome α (List α)}
    (hrule : 0 < rule.length) (hfault : ∀ c, cell = .error c → point 0 = .error (.fault c))
    (hpoint : ∀ b, cell = .ok b → ∀ q x, rule[q]? = some x →
      point q = (metric b (x, q)).map toList) :
    (do let b ← cell; return (← rule.zipIdx.mapM (metric b)).flatMap toList :
        Outcome α (List α)) = ((List.range rule.length).mapM point).map List.flatten := by
  cases cell with
  | error c =>
    rw [mapM_range_eq_error.mpr ⟨0, hrule, hfault c rfl, by simp⟩]
    rfl
  | ok b =>
    have hpoints : (List.range' 0 rule.length).mapM point =
        (rule.zipIdx.mapM (metric b)).map (List.map toList) :=
      mapM_zipIdx fun q x hq => by
        rw [Nat.zero_add]
        exact hpoint b rfl q x hq
    rw [List.range_eq_range', hpoints, lift_ok, ok_bind]
    cases rule.zipIdx.mapM (metric b) <;> rfl

/-- The terms of a sub-cell are those of its points, one after the other; the first point that is
refused decides about the sub-cell. -/
theorem subcellTerms_eq {source : JacobianSource α}
    (hsource : r.jacobianSource dim options = .ok source) (hr : r.dim = dim.value) {s : Nat}
    (hs : s < r.subcells) :
    r.subcellTerms dim source (r.embedding s).parent s =
      ((List.range dim.vertices).mapM (r.pointTerms dim options s)).map List.flatten := by
  cases dim with
  | two =>
    refine terms_eq_points (show 0 < 4 by decide) (fun c hcell => ?_)
      fun cell hcell q x hq => pointTerms_two hsource hr hs hcell hq
    rw [pointTerms, hcell]
    rfl
  | three =>
    refine terms_eq_points (show 0 < 8 by decide) (fun c hcell => ?_)
      fun cell hcell q x hq => pointTerms_three hcell hq
    rw [pointTerms, hcell]
    rfl

/-! ### All slots -/

theorem Slotted.slotTerms_slotOf {order elements : Nat} {table : Array Nat}
    (h : r.Slotted dim elements (order ^ dim.value) table) {source : JacobianSource α}
    (hsource : r.jacobianSource dim options = .ok source) (hr : r.dim = dim.value) {s : Nat}
    (hs : s < r.subcells) :
    r.slotTerms dim source (order ^ dim.value) table
        (slotOf (order ^ dim.value) (r.embedding s)) =
      ((List.range dim.vertices).mapM (r.pointTerms dim options s)).map List.flatten := by
  rw [slotTerms, entryAt_eq_ok.mpr (h.getElem_slotOf s hs), lift_ok, ok_bind,
    slotOf_div (h.placed s hs).offset_lt, subcellTerms_eq hsource hr hs]

theorem Slotted.exists_slotTerms_eq {order elements : Nat} {table : Array Nat}
    (h : r.Slotted dim elements (order ^ dim.value) table) {source : JacobianSource α}
    (hsource : r.jacobianSource dim options = .ok source) (hr : r.dim = dim.value) {slot : Nat}
    (hslot : slot < table.size) :
    ∃ s < r.subcells, slotOf (order ^ dim.value) (r.embedding s) = slot ∧
      r.slotTerms dim source (order ^ dim.value) table slot =
        ((List.range dim.vertices).mapM (r.pointTerms dim options s)).map List.flatten := by
  obtain ⟨s, hs, -, rfl⟩ := h.exists_getElem slot hslot
  exact ⟨s, hs, rfl, h.slotTerms_slotOf hsource hr hs⟩

def Evaluates (r : Refinement α) (dim : Dimension) (options : Options α) (s : Nat) : Prop :=
  ∀ q < dim.vertices, ∃ terms, r.pointTerms dim options s q = .ok terms

/-- A sub-cell is refused at a point, for the given cause, that comes before all other points that
are refused: no sub-cell in an earlier slot is refused, and none of its own earlier points. -/
structure FirstRefused (r : Refinement α) (dim : Dimension) (options : Options α)
    (order s q : Nat) (cause : Error α) : Prop where
  subcell_lt : s < r.subcells
  point_lt : q < dim.vertices
  refused : r.pointTerms dim options s q = .error (.error cause)
  points_before : ∀ q' < q, ∃ terms, r.pointTerms dim options s q' = .ok terms
  slots_before : ∀ t < r.subcells,
    slotOf (order ^ dim.value) (r.embedding t) < slotOf (order ^ dim.value) (r.embedding s) →
      r.Evaluates dim options t

theorem exists_mapM_pointTerms {s : Nat} :
    (∃ blocks, (List.range dim.vertices).mapM (r.pointTerms dim options s) = .ok blocks) ↔
      r.Evaluates dim options s := by
  constructor
  · rintro ⟨blocks, h⟩ q hq
    obtain ⟨terms, -, hterms⟩ := exists_of_mapM_eq_ok h (List.mem_range.mpr hq)
    exact ⟨terms, hterms⟩
  · intro h
    exact exists_mapM_eq_ok fun q hq => h q (List.mem_range.mp hq)

/-- Concurrent and in order, the evaluation of all slots reports the first point that is
refused. -/
theorem Slotted.exists_firstRefused {order elements : Nat} {table : Array Nat}
    (h : r.Slotted dim elements (order ^ dim.value) table) {source : JacobianSource α}
    (hsource : r.jacobianSource dim options = .ok source) (hr : r.dim = dim.value)
    {schedule : Schedule} {parallel : Bool} {cause : Error α}
    (hfails : r.allTerms schedule dim source (order ^ dim.value) table parallel =
      .error (.error cause)) :
    ∃ s q, r.FirstRefused dim options order s q cause := by
  have hserial : (List.range table.size).mapM
      (r.slotTerms dim source (order ^ dim.value) table) = .error (.error cause) := by
    cases parallel with
    | false => exact hfails
    | true =>
      exact schedule.mapM_of_leastFailure_eq_error _ List.pairwise_lt_range hfails rfl
  obtain ⟨slot, hslot, hrefused, hbefore⟩ := mapM_range_eq_error.mp hserial
  obtain ⟨s, hs, rfl, hterms⟩ := h.exists_slotTerms_eq hsource hr hslot
  rw [hterms, map_eq_error, mapM_range_eq_error] at hrefused
  obtain ⟨q, hq, hpoint, hpoints⟩ := hrefused
  refine ⟨s, q, hs, hq, hpoint, hpoints, fun t ht hlt => ?_⟩
  obtain ⟨terms, hok⟩ := hbefore _ hlt
  obtain ⟨t', ht', heq, hterms'⟩ := h.exists_slotTerms_eq hsource hr (hlt.trans hslot)
  obtain rfl : t' = t := h.covers.embedding_inj t' ht' t ht
    (slotOf_inj (h.placed t' ht').offset_lt (h.placed t ht).offset_lt heq)
  rw [hterms', map_eq_ok] at hok
  obtain ⟨blocks, hblocks, -⟩ := hok
  exact exists_mapM_pointTerms.mp ⟨blocks, hblocks⟩

theorem FirstRefused.not_evaluates {order s q : Nat} {cause : Error α}
    (h : r.FirstRefused dim options order s q cause) : ¬r.Evaluates dim options s := by
  intro heval
  obtain ⟨terms, hterms⟩ := heval q h.point_lt
  cases hterms.symm.trans h.refused

theorem FirstRefused.cause_unique {order elements : Nat}
    (hcovers : r.Covers dim elements (order ^ dim.value)) {s q t p : Nat}
    {cause cause' : Error α} (h : r.FirstRefused dim options order s q cause)
    (h' : r.FirstRefused dim options order t p cause') : cause = cause' := by
  have hslot {s q t p : Nat} {cause cause' : Error α}
      (h : r.FirstRefused dim options order s q cause)
      (h' : r.FirstRefused dim options order t p cause') :
      ¬slotOf (order ^ dim.value) (r.embedding s) < slotOf (order ^ dim.value) (r.embedding t) := by
    intro hlt
    exact h.not_evaluates (h'.slots_before s h.subcell_lt hlt)
  have hpoint {s q p : Nat} {cause cause' : Error α}
      (h : r.FirstRefused dim options order s q cause)
      (h' : r.FirstRefused dim options order s p cause') : ¬q < p := by
    intro hlt
    obtain ⟨terms, hterms⟩ := h'.points_before q hlt
    cases hterms.symm.trans h.refused
  have hslots : slotOf (order ^ dim.value) (r.embedding s) =
      slotOf (order ^ dim.value) (r.embedding t) :=
    Nat.le_antisymm (Nat.not_lt.mp (hslot h' h)) (Nat.not_lt.mp (hslot h h'))
  obtain rfl : s = t := hcovers.embedding_inj s h.subcell_lt t h'.subcell_lt
    (slotOf_inj (hcovers.placed s h.subcell_lt).offset_lt
      (hcovers.placed t h'.subcell_lt).offset_lt hslots)
  obtain rfl : q = p := Nat.le_antisymm (Nat.not_lt.mp (hpoint h' h)) (Nat.not_lt.mp (hpoint h h'))
  cases h.refused.symm.trans h'.refused
  rfl

/-! ### The whole array -/

/-- Stored Jacobians have the sizes of the refinement wherever an evaluation would use them. -/
def FactorsFit (r : Refinement α) (dim : Dimension) (options : Options α) : Prop :=
  dim = .two → options.planarJacobians = .geometricFactors →
    ∀ factors, r.factors = some factors → factors.dim = .two ∧ factors.subcells = r.subcells

/-- Where the sub-cells fill the elements and stored Jacobians have the right sizes, the choice of
Jacobians refuses nothing. -/
theorem Slotted.reports_jacobianSource {order elements : Nat} {table : Array Nat}
    (h : r.Slotted dim elements (order ^ dim.value) table) (hr : r.dim = dim.value)
    (hfactors : r.FactorsFit dim options) :
    (r.jacobianSource dim options).Reports fun _ => False := by
  refine Assembly.reports_jacobianSource hr (fun s hs hfits => ?_) fun hdim hplanar factors hsome =>
    ?_
  · rw [(h.placed s hs).fits] at hfits
    cases hfits
  · obtain ⟨hd, hs⟩ := hfactors hdim hplanar factors hsome
    exact ⟨fun hne => hne (by rw [hd]; rfl), fun hne => hne hs.symm⟩

/-- What an evaluation stores at the place of a sub-cell are the terms of its points. -/
theorem Evaluated.mapM_get {order elements : Nat} {source : JacobianSource α}
    {m : MetricArray α} (h : r.Evaluated dim order elements source m)
    (hsource : r.jacobianSource dim options = .ok source) {s q : Nat} (hs : s < r.subcells)
    (hq : q < dim.vertices) :
    ∃ terms, r.pointTerms dim options s q = .ok terms ∧
      (List.range dim.components).mapM (fun c =>
        m.get [c, q, (r.embedding s).offset, (r.embedding s).parent]) = .ok terms := by
  obtain ⟨all, hall, hstored⟩ := h.stored s hs
  rw [subcellTerms_eq hsource h.dim_eq hs, map_eq_ok] at hall
  obtain ⟨blocks, hblocks, rfl⟩ := hall
  obtain ⟨terms, hat, hterms⟩ := getElem?_of_mapM_eq_ok hblocks (List.getElem?_range hq)
  refine ⟨terms, hterms, ?_⟩
  have hlength : ∀ b ∈ blocks, b.length = dim.components := by
    intro b hb
    obtain ⟨q, -, hq⟩ := exists_of_mem_of_mapM_eq_ok hblocks hb
    exact length_pointTerms hq
  have hplaced := h.covers.placed s hs
  rw [mapM_eq_ok]
  refine List.ext_getElem? fun c => ?_
  rw [List.getElem?_map, List.getElem?_map]
  by_cases hc : c < dim.components
  · have hread := hstored (q * dim.components + c) (by
      rw [Nat.mul_comm dim.components]
      exact Lattice.place_lt hq hc)
    rw [getElem?_flatten_blocks hlength hc, hat, Option.bind_some] at hread
    have hlt : c < terms.length := (length_pointTerms hterms).symm ▸ hc
    rw [List.getElem?_eq_getElem hlt] at hread ⊢
    rw [List.getElem?_range hc, Option.map_some, Option.map_some]
    refine congrArg some ((m.get_eq_ok ?_ ?_ ?_ ?_).mpr ?_)
    · rwa [h.components_eq]
    · rwa [h.points_eq]
    · rw [h.subcells_eq]
      exact hplaced.offset_lt
    · rw [h.elements_eq]
      exact hplaced.parent_lt
    · rw [h.components_eq, h.points_eq]
      exact hread
  · rw [List.getElem?_eq_none (by simpa using hc),
      List.getElem?_eq_none (by rw [length_pointTerms hterms]; omega)]
    rfl

theorem reports_firstRefused (schedule : Schedule) {order elements : Nat} {table : Array Nat}
    (hr : r.dim = dim.value) (htable : r.slots dim order elements = .ok table)
    (hfactors : r.FactorsFit dim options) :
    Outcome.Reports (fun cause => ∃ s q, r.FirstRefused dim options order s q cause)
      (r.evaluateMetric schedule order elements options).result := by
  have hslots := slots_spec htable
  rw [evaluateMetric_result, dimension_eq_ok.mpr hr, ok_bind, htable, ok_bind]
  refine Outcome.Reports.bind
    ((hslots.reports_jacobianSource hr hfactors).imp fun _ h => h.elim) fun source hsource => ?_
  rw [subcells_eq_ok_of_slots htable, lift_ok, ok_bind]
  refine Outcome.Reports.bind (Outcome.reports_lift _).discard fun _ _ => ?_
  exact Outcome.Reports.bind (fun cause hcause => hslots.exists_firstRefused hsource hr hcause)
    fun _ _ => Outcome.reports_lift _

/-- The terms of every point are stored at the place of its sub-cell. -/
theorem mapM_get_of_evaluateMetric {schedule : Schedule} {order elements : Nat}
    (hr : r.dim = dim.value) {m : MetricArray α}
    (h : (r.evaluateMetric schedule order elements options).result = .ok m) {s q : Nat}
    (hs : s < r.subcells) (hq : q < dim.vertices) :
    ∃ terms, r.pointTerms dim options s q = .ok terms ∧
      (List.range dim.components).mapM (fun c =>
        m.get [c, q, (r.embedding s).offset, (r.embedding s).parent]) = .ok terms := by
  obtain ⟨dim', source, hsource, heval⟩ := evaluateMetric_spec h
  obtain rfl : dim = dim' := Dimension.eq_of_value_eq (hr.symm.trans heval.dim_eq)
  exact heval.mapM_get hsource hs hq

theorem evaluates_of_evaluateMetric {schedule : Schedule} {order elements : Nat}
    (hr : r.dim = dim.value) {m : MetricArray α}
    (h : (r.evaluateMetric schedule order elements options).result = .ok m) {s : Nat}
    (hs : s < r.subcells) : r.Evaluates dim options s := by
  intro q hq
  obtain ⟨terms, hterms, -⟩ := mapM_get_of_evaluateMetric hr h hs hq
  exact ⟨terms, hterms⟩

/-- An evaluation stores the terms of every point at the place of its sub-cell. If one is refused,
the error is that of the first in the order of the slots, then of the points, and it names that
point. Where all arrays can be stored, the evaluation succeeds unless a point is refused, and it
fails exactly so. -/
theorem evaluateMetric_pointwise (schedule : Schedule) {order elements : Nat} {table : Array Nat}
    (hr : r.dim = dim.value) (htable : r.slots dim order elements = .ok table)
    (hfactors : r.FactorsFit dim options) :
    let result := (r.evaluateMetric schedule order elements options).result
    (∀ m, result = .ok m → ∀ s < r.subcells, ∀ q < dim.vertices,
      ∃ terms, r.pointTerms dim options s q = .ok terms ∧
        (List.range dim.components).mapM (fun c =>
          m.get [c, q, (r.embedding s).offset, (r.embedding s).parent]) = .ok terms) ∧
    (∀ cause, result = .error (.error cause) →
      ∃ s q, r.FirstRefused dim options order s q cause ∧
        (cause = .jacobianMismatch s q ∨
          ∃ det, cause = .nonPositiveDeterminant (r.embedding s).parent s q det)) ∧
    (r.Complete → r.TermsStorable dim order elements options →
      ((∃ m, result = .ok m) ↔ ∀ s < r.subcells, r.Evaluates dim options s) ∧
      ∀ failure, result = .error failure ↔
        ∃ cause s q, failure = .error cause ∧ r.FirstRefused dim options order s q cause) := by
  intro result
  have hfirst (cause : Error α) (hcause : result = .error (.error cause)) :
      ∃ s q, r.FirstRefused dim options order s q cause :=
    reports_firstRefused schedule hr htable hfactors cause hcause
  refine ⟨fun m hm s hs q hq => mapM_get_of_evaluateMetric hr hm hs hq, fun cause hcause => ?_,
    fun hcomplete hstorable => ?_⟩
  · obtain ⟨s, q, h⟩ := hfirst cause hcause
    exact ⟨s, q, h, reports_pointTerms s q cause h.refused⟩
  have hslots : (r.slots dim order elements).Faultless := htable ▸ Outcome.faultless_ok table
  have hfaultless : Outcome.Faultless result :=
    Assembly.faultless_evaluateMetric schedule hr hslots hcomplete hstorable
  constructor
  · refine ⟨fun ⟨m, hm⟩ s hs => evaluates_of_evaluateMetric hr hm hs, fun heval => ?_⟩
    refine hfaultless.exists_of_reports fun cause hcause => ?_
    obtain ⟨s, q, h⟩ := hfirst cause hcause
    exact h.not_evaluates (heval s h.subcell_lt)
  · intro failure
    constructor
    · intro hfailure
      cases failure with
      | fault c => exact absurd hfailure (hfaultless c)
      | error cause =>
        obtain ⟨s, q, h⟩ := hfirst cause hfailure
        exact ⟨cause, s, q, rfl, h⟩
    · rintro ⟨cause, s, q, rfl, h⟩
      cases hresult : result with
      | ok m => exact absurd (evaluates_of_evaluateMetric hr hresult h.subcell_lt) h.not_evaluates
      | error failure =>
        cases failure with
        | fault c => exact absurd hresult (hfaultless c)
        | error cause' =>
          obtain ⟨t, p, h'⟩ := hfirst cause' hresult
          rw [h.cause_unique (slots_spec htable).covers h']

/-- Two quadrilaterals in two elements of order one. The first one lies in the second element and
is folded at its first vertex; the second one lies in the first element and is folded at the vertex
opposite to its first one. -/
def darts : Refinement ℚ :=
  .ofTable 2 #[⟨.quadrilateral, ⟨1, 0⟩, [11 / 4, 3 / 4, 3, 0, 3, 1, 2, 1]⟩,
    ⟨.quadrilateral, ⟨0, 0⟩, [0, 0, 1, 0, 1 / 4, 1 / 4, 0, 1]⟩] none

/-- Of two darts the second one is refused, at its last point, although the first one is folded at
its first point; two squares have the metric of a unit square at every point. -/
theorem evaluateMetric_pointwise_darts :
    (darts.pointTerms .two (Options.standard.withPlanarJacobians .vertices) 0 0).isOk = false ∧
    (darts.evaluateMetric ⟨List.reverse, List.reverse_perm⟩ 1 2
      (Options.standard.withPlanarJacobians .vertices)).result =
        .error (.error (.nonPositiveDeterminant 0 1 3 (-(1 / 2)))) ∧
    ∃ m, (Assembly.twoSquares.evaluateMetric .inOrder 1 2
      (Options.standard.withParallel false)).result = .ok m ∧
      (List.range 3).mapM (fun c => m.get [c, 3, 0, 1]) = .ok [1 / 4, 0, 1 / 4] := by
  refine ⟨by decide +kernel, ?_, ?_⟩
  · have hslots : (darts.slots .two 1 2).isOk = true := by decide +kernel
    obtain ⟨table, htable⟩ := exists_of_isOk hslots
    have hfit : darts.FactorsFit .two (Options.standard.withPlanarJacobians .vertices) :=
      fun _ h => by cases h
    obtain ⟨-, -, hrest⟩ := evaluateMetric_pointwise ⟨List.reverse, List.reverse_perm⟩ rfl htable hfit
    have hcomplete : darts.Complete := by
      show ∀ s < 2, (darts.vertices s).length = 8
      decide
    obtain ⟨-, herror⟩ := hrest hcomplete ⟨⟨_, rfl⟩, fun _ h => by cases h⟩
    refine (herror _).mpr ⟨_, 1, 3, rfl, ?_⟩
    have hbefore : ∀ q < 3, (darts.pointTerms .two
        (Options.standard.withPlanarJacobians .vertices) 1 q).isOk = true := by decide +kernel
    exact
      { subcell_lt := by decide
        point_lt := by decide
        refused := by decide +kernel
        points_before := fun q hq => exists_of_isOk (hbefore q hq)
        slots_before := fun t _ hlt => absurd hlt (Nat.not_lt_zero _) }
  · have hslots : (Assembly.twoSquares.slots .two 1 2).isOk = true := by decide +kernel
    obtain ⟨table, htable⟩ := exists_of_isOk hslots
    have hok : (Assembly.twoSquares.evaluateMetric .inOrder 1 2
        (Options.standard.withParallel false)).result.isOk = true := by decide +kernel
    obtain ⟨m, hm⟩ := exists_of_isOk hok
    have hfit : Assembly.twoSquares.FactorsFit .two (Options.standard.withParallel false) :=
      fun _ _ _ h => by cases h
    obtain ⟨hpoints, -⟩ := evaluateMetric_pointwise .inOrder rfl htable hfit
    obtain ⟨terms, hterms, hread⟩ := hpoints m hm 1 (by decide) 3 (by decide)
    have hunit : Assembly.twoSquares.pointTerms .two (Options.standard.withParallel false) 1 3 =
        .ok [1 / 4, 0, 1 / 4] := by decide +kernel
    obtain rfl := Except.ok.inj (hterms.symm.trans hunit)
    exact ⟨m, hm, hread⟩

end Refinement

end LowOrderRefinement
