import LowOrderRefinement.Evaluation
import LowOrderRefinement.Kernel
import LowOrderRefinement.Proofs.Cell.CellCoordinates
import LowOrderRefinement.Proofs.Execution.Schedules
import LowOrderRefinement.Proofs.Slots.Inversion
import LowOrderRefinement.Proofs.Storage.Blocks

/-! What an evaluation of metric terms that succeeds has computed: every sub-cell has
the terms of its own Jacobians, and these are found at the place of the sub-cell in
its element. Concurrent evaluation succeeds exactly when evaluation in order does;
when the vertices of all sub-cells are complete, it also fails in the same way. -/

namespace LowOrderRefinement

variable {α : Type}

namespace Journaled

variable {ε β : Type}

@[simp] theorem result_lift (x : Except ε β) : (liftM x : Journaled ε β).result = x := rfl

@[simp] theorem result_liftChecked (x : Checked β) :
    (liftM x : Journaled (Failure α) β).result = liftM x := rfl

@[simp] theorem result_discard (x : Journaled ε β) : (discard x).result = discard x.result := by
  rcases x with ⟨journal, _ | b⟩ <;> rfl

@[simp] theorem result_ite (c : Prop) [Decidable c] (x y : Journaled ε β) :
    (if c then x else y).result = if c then x.result else y.result := by
  split <;> rfl

@[simp] theorem result_mapError {δ : Type} (f : ε → δ) (x : Journaled ε β) :
    (x.mapError f).result = x.result.mapError f := rfl

end Journaled

@[simp] theorem discard_eq_ok {ε β : Type} {x : Except ε β} {u : Unit} :
    discard x = .ok u ↔ ∃ b, x = .ok b := by
  cases x <;> simp [discard, Functor.discard, Functor.mapConst, Except.map]

@[simp] theorem discard_eq_error {ε β : Type} {x : Except ε β} {e : ε} :
    discard x = .error e ↔ x = .error e := by
  cases x <;> simp [discard, Functor.discard, Functor.mapConst, Except.map]

@[simp] theorem entryAt_eq_ok {xs : Array α} {i : Nat} {x : α} :
    entryAt xs i = .ok x ↔ xs[i]? = some x := by
  unfold entryAt
  split <;> simp [*]

theorem entryAt_toArray {xs : List α} {i : Nat} {x : α} (h : xs[i]? = some x) :
    entryAt xs.toArray i = .ok x := by
  rw [entryAt_eq_ok, List.getElem?_toArray, h]

theorem Dimension.ofNat?_eq_some {n : Nat} {d : Dimension} :
    Dimension.ofNat? n = some d ↔ n = d.value := by
  constructor
  · intro h
    unfold Dimension.ofNat? at h
    split at h <;> cases h <;> rfl
  · rintro rfl
    cases d <;> rfl

theorem Dimension.eq_of_value_eq {d d' : Dimension} (h : d.value = d'.value) : d = d' := by
  cases d <;> cases d' <;> first | rfl | cases h

@[simp] theorem dimension_eq_ok {dim : Nat} {d : Dimension} :
    (Outcome.dimension dim : Outcome α Dimension) = .ok d ↔ dim = d.value := by
  rw [← Dimension.ofNat?_eq_some, Outcome.dimension]
  cases Dimension.ofNat? dim <;> simp [Outcome.refuse]

theorem MetricArray.ofEntries_spec {components points subcells elements : Nat}
    {entries : Array α} {m : MetricArray α}
    (h : MetricArray.ofEntries components points subcells elements entries = .ok m) :
    m.components = components ∧ m.points = points ∧ m.subcells = subcells ∧
      m.elements = elements ∧ m.entries = entries := by
  unfold MetricArray.ofEntries at h
  simp only at h
  split at h
  · cases h
    exact ⟨rfl, rfl, rfl, rfl, rfl⟩
  · cases h

namespace GeometricFactors

theorem ofEntries_spec {dim subcells : Nat} {entries : Array α} {f : GeometricFactors α}
    (h : ofEntries dim subcells entries = .ok f) :
    dim = f.dim.value ∧ f.subcells = subcells ∧ f.jacobians = entries := by
  obtain ⟨d, hd, h⟩ := bind_eq_ok.mp h
  simp only at h
  split at h
  · split at h
    · obtain rfl := pure_eq_ok.mp h
      exact ⟨dimension_eq_ok.mp hd, rfl, rfl⟩
    · cases h
  · cases h

theorem exists_entry (f : GeometricFactors α) {subcell point row column : Nat}
    (hsubcell : subcell < f.subcells) (hpoint : point < f.dim.vertices)
    (hrow : row < f.dim.value) (hcolumn : column < f.dim.value) :
    ∃ x, f.entry subcell point row column = .ok x := by
  have hbox : Lattice.inBox [point, row, column, subcell] f.layout.shape := by
    simp [f.shape_layout, Lattice.inBox, *]
  have hlt := Lattice.flatten_lt hbox
  rw [← f.size_jacobians] at hlt
  refine ⟨f.jacobians[Lattice.flatten [point, row, column, subcell] f.layout.shape], ?_⟩
  rw [entry, f.layout.offset_eq_ok.mpr ⟨hbox, rfl⟩, ok_bind, entryAt, dif_pos hlt]

theorem exists_planar (f : GeometricFactors α) (hdim : f.dim = .two) {subcell point : Nat}
    (hsubcell : subcell < f.subcells) (hpoint : point < 4) :
    ∃ j, f.planar subcell point = .ok j := by
  have hentry (row column : Nat) (hrow : row < 2) (hcolumn : column < 2) :
      ∃ x, f.entry subcell point row column = .ok x :=
    f.exists_entry hsubcell (by rw [hdim]; exact hpoint) (by rw [hdim]; exact hrow)
      (by rw [hdim]; exact hcolumn)
  obtain ⟨xx, hxx⟩ := hentry 0 0 (by decide) (by decide)
  obtain ⟨xy, hxy⟩ := hentry 0 1 (by decide) (by decide)
  obtain ⟨yx, hyx⟩ := hentry 1 0 (by decide) (by decide)
  obtain ⟨yy, hyy⟩ := hentry 1 1 (by decide) (by decide)
  refine ⟨⟨xx, xy, yx, yy⟩, ?_⟩
  simp only [planar, hdim, decide_true, hxx, hxy, hyx, hyy, require, if_true, ok_bind]
  rfl

end GeometricFactors

namespace JacobianSource

/-- Stored Jacobians are planar and are there for every sub-cell. -/
def Suits (source : JacobianSource α) (r : Refinement α) : Prop :=
  ∀ f verify, source = .stored f verify → f.dim = .two ∧ f.subcells = r.subcells

end JacobianSource

/-! ### Terms of cells -/

namespace Refinement

/-- The vertices of every sub-cell have as many coordinates as the dimension asks for, as they do
when every sub-cell fills storage of this length. -/
def Complete (r : Refinement α) : Prop :=
  ∀ s < r.subcells, (r.vertices s).length = r.dim * 2 ^ r.dim

theorem accept_eq_ok {β : Type} {parent subcell point : Nat} {x : Except α β} {b : β} :
    accept parent subcell point x = .ok b ↔ x = .ok b := by
  cases x <;> simp [accept, Outcome.refuse]

theorem faultless_accept {β : Type} (parent subcell point : Nat) (x : Except α β) :
    (accept parent subcell point x).Faultless := by
  cases x
  · exact Outcome.faultless_refuse _
  · exact Outcome.faultless_ok _

theorem reports_accept {D : Error α → Prop} {β : Type} {parent subcell point : Nat}
    (h : ∀ det, D (.nonPositiveDeterminant parent subcell point det)) (x : Except α β) :
    (accept parent subcell point x).Reports D := by
  cases x with
  | ok metric => exact Outcome.reports_ok metric
  | error det => exact Outcome.reports_refuse (h det)

variable [Scalar α]

omit [Scalar α] in
/-- The terms of a sub-cell are the components of its metrics, one metric after the other. -/
theorem terms_eq_ok {β σ : Type} {cell : Checked β} {metrics : β → Outcome α (List σ)}
    {toList : σ → List α} {terms : List α} :
    (do let c ← cell; return (← metrics c).flatMap toList : Outcome α (List α)) = .ok terms ↔
      ∃ c, cell = .ok c ∧ ∃ ms, metrics c = .ok ms ∧ ms.flatMap toList = terms := by
  simp only [bind_eq_ok, lift_eq_ok, pure_eq_ok]

theorem length_subcellTerms {r : Refinement α} {dim : Dimension} {source : JacobianSource α}
    {parent subcell : Nat} {terms : List α}
    (h : r.subcellTerms dim source parent subcell = .ok terms) :
    terms.length = dim.components * dim.vertices := by
  cases dim with
  | two =>
    obtain ⟨cell, -, metrics, hmetrics, rfl⟩ := terms_eq_ok.mp h
    have hlength : metrics.length = 4 := length_of_mapM_eq_ok hmetrics
    simp [Sym2.toList, hlength, Dimension.components, Dimension.vertices,
      Dimension.value]
  | three =>
    obtain ⟨cell, -, metrics, hmetrics, rfl⟩ := terms_eq_ok.mp h
    have hlength : metrics.length = 8 := length_of_mapM_eq_ok hmetrics
    simp [Sym3.toList, hlength, Dimension.components, Dimension.vertices,
      Dimension.value]

/-! ### No faults -/

theorem faultless_planar {source : JacobianSource α} {r : Refinement α} (hsource : source.Suits r)
    (cell : Quadrilateral α) {subcell point : Nat} (hsubcell : subcell < r.subcells)
    (hpoint : point < 4) (ξ : Vec2 α) : (source.planar cell subcell point ξ).Faultless := by
  cases source with
  | vertices => exact Outcome.faultless_ok _
  | stored factors verify =>
    obtain ⟨hdim, hsize⟩ := hsource factors verify rfl
    obtain ⟨j, hj⟩ := factors.exists_planar hdim (hsize ▸ hsubcell) hpoint
    refine (Outcome.faultless_lift hj).bind fun j _ => ?_
    cases verify with
    | none => exact Outcome.faultless_ok j
    | some tolerance =>
      dsimp only
      split
      · exact Outcome.faultless_ok j
      · exact Outcome.faultless_refuse _

/-- The terms of a sub-cell with complete vertices are there unless its geometry is refused. -/
theorem faultless_subcellTerms {r : Refinement α} {dim : Dimension} {source : JacobianSource α}
    (hdim : r.dim = dim.value) (hr : r.Complete) (hsource : source.Suits r) (parent : Nat)
    {subcell : Nat} (hsubcell : subcell < r.subcells) :
    (r.subcellTerms dim source parent subcell).Faultless := by
  have hlen := hr subcell hsubcell
  rw [hdim] at hlen
  cases dim with
  | two =>
    obtain ⟨cell, hcell⟩ := Quadrilateral.decodes.exists_ok hlen
    refine (Outcome.faultless_lift hcell).bind fun cell _ => ?_
    refine Outcome.Faultless.bind (Outcome.Faultless.mapM fun x hx => ?_) fun metrics _ =>
      Outcome.faultless_ok _
    have hpoint : x.2 < 4 := List.snd_lt_of_mem_zipIdx hx
    exact (faultless_planar hsource cell hsubcell hpoint _).bind fun j _ =>
      faultless_accept _ _ _ _
  | three =>
    obtain ⟨cell, hcell⟩ := Hexahedron.decodes.exists_ok hlen
    refine (Outcome.faultless_lift hcell).bind fun cell _ => ?_
    exact Outcome.Faultless.bind (Outcome.Faultless.mapM fun x _ => faultless_accept _ _ _ _)
      fun metrics _ => Outcome.faultless_ok _

/-- The entries of the Jacobians of one sub-cell, which has to have the geometry of the dimension. -/
def subcellEntries (r : Refinement α) (dim : Dimension) (s : Nat) : Outcome α (List α) := do
  r.checkGeometry dim s
  return GeometricFactors.cellEntries dim.value (← r.jacobianRows dim s)

/-- Computed factors hold the Jacobians of all sub-cells, one sub-cell after the other. -/
theorem computeFactors_spec {r : Refinement α} {factors : GeometricFactors α}
    (h : r.computeFactors = .ok factors) :
    r.dim = factors.dim.value ∧ factors.subcells = r.subcells ∧
      ∃ cells : List (List α), factors.jacobians = cells.flatten.toArray ∧
        cells.length = r.subcells ∧ ∀ s < r.subcells, ∃ rows,
          r.jacobianRows factors.dim s = .ok rows ∧
            cells[s]? = some (GeometricFactors.cellEntries factors.dim.value rows) := by
  unfold computeFactors at h
  obtain ⟨dim, hdim, h⟩ := bind_eq_ok.mp h
  obtain ⟨layout, -, h⟩ := bind_eq_ok.mp h
  obtain ⟨length, -, h⟩ := bind_eq_ok.mp h
  obtain ⟨-, -, h⟩ := bind_eq_ok.mp h
  obtain ⟨cells, hcells, h⟩ := bind_eq_ok.mp h
  obtain ⟨hd, hs, hj⟩ := GeometricFactors.ofEntries_spec h
  obtain rfl : dim = factors.dim := Dimension.eq_of_value_eq (dimension_eq_ok.mp hdim ▸ hd)
  refine ⟨hd, hs, cells, hj, ?_, fun s hs => ?_⟩
  · rw [length_of_mapM_eq_ok hcells, List.length_range]
  · obtain ⟨entries, hentries, hat⟩ := getElem?_of_mapM_eq_ok hcells (i := s) (x := s)
      (by rw [List.getElem?_range hs])
    obtain ⟨-, -, hat⟩ := bind_eq_ok.mp hat
    obtain ⟨rows, hrows, hat⟩ := bind_eq_ok.mp hat
    exact ⟨rows, lift_eq_ok.mp hrows, by rw [hentries, ← pure_eq_ok.mp hat]⟩

theorem dim_of_computeFactors {r : Refinement α} {dim : Dimension} {factors : GeometricFactors α}
    (h : r.computeFactors = .ok factors) (hr : r.dim = dim.value) : factors.dim = dim :=
  Dimension.eq_of_value_eq ((computeFactors_spec h).1.symm.trans hr)

theorem suits_of_jacobianSource {r : Refinement α} {dim : Dimension} {options : Options α}
    {source : JacobianSource α} (hdim : r.dim = dim.value)
    (h : r.jacobianSource dim options = .ok source) : source.Suits r := by
  rintro f verify rfl
  unfold jacobianSource at h
  split at h
  · split at h
    next factors hfactors =>
      simp only [bind_eq_ok, agree_eq_ok, exists_const, pure_eq_ok] at h
      obtain ⟨hd, hs, heq⟩ := h
      cases heq
      exact ⟨Dimension.eq_of_value_eq hd.symm, hs.symm⟩
    next hnone =>
      obtain ⟨factors, hfactors, heq⟩ := bind_eq_ok.mp h
      cases pure_eq_ok.mp heq
      exact ⟨dim_of_computeFactors hfactors hdim, (computeFactors_spec hfactors).2.1⟩
  · cases h

/-! ### All slots -/

section Slots

variable {r : Refinement α} {dim : Dimension} {source : JacobianSource α}
  {elements perElement : Nat} {table : Array Nat}

theorem slotTerms_eq_ok {slot : Nat} {terms : List α} :
    r.slotTerms dim source perElement table slot = .ok terms ↔
      ∃ s, table[slot]? = some s ∧
        r.subcellTerms dim source (slot / perElement) s = .ok terms := by
  simp only [slotTerms, bind_eq_ok, lift_eq_ok, entryAt_eq_ok]

theorem length_of_slotTerms {n : Nat} {blocks : List (List α)}
    (h : (List.range n).mapM (r.slotTerms dim source perElement table) = .ok blocks) :
    ∀ b ∈ blocks, b.length = dim.components * dim.vertices := by
  intro b hb
  obtain ⟨slot, -, hterms⟩ := exists_of_mem_of_mapM_eq_ok h hb
  obtain ⟨_, -, hterms⟩ := slotTerms_eq_ok.mp hterms
  exact length_subcellTerms hterms

theorem Slotted.exists_block {blocks : List (List α)}
    (h : r.Slotted dim elements perElement table)
    (hblocks : (List.range table.size).mapM (r.slotTerms dim source perElement table) = .ok blocks)
    {s : Nat} (hs : s < r.subcells) :
    ∃ terms, blocks[slotOf perElement (r.embedding s)]? = some terms ∧
      r.subcellTerms dim source (r.embedding s).parent s = .ok terms := by
  have hslot := h.getElem_slotOf s hs
  have hlt : slotOf perElement (r.embedding s) < table.size :=
    (Array.getElem?_eq_some_iff.mp hslot).1
  obtain ⟨terms, hblock, hterms⟩ := getElem?_of_mapM_eq_ok hblocks
    (i := slotOf perElement (r.embedding s)) (List.getElem?_range hlt)
  obtain ⟨s', hs', hterms⟩ := slotTerms_eq_ok.mp hterms
  obtain rfl : s = s' := Option.some.inj (hslot.symm.trans hs')
  rw [slotOf_div (h.placed s hs).offset_lt] at hterms
  exact ⟨terms, hblock, hterms⟩

/-- Concurrent evaluation finds all terms exactly when evaluation in order does. -/
theorem allTerms_parallel_eq_ok (schedule schedule' : Schedule) {terms : List (List α)} :
    allTerms schedule r dim source perElement table true = .ok terms ↔
      allTerms schedule' r dim source perElement table false = .ok terms :=
  schedule.leastFailure_eq_ok _ List.pairwise_lt_range

/-- With complete vertices, concurrent evaluation also fails as evaluation in order does. -/
theorem allTerms_parallel (schedule schedule' : Schedule) (hdim : r.dim = dim.value)
    (hr : r.Complete) (hsource : source.Suits r)
    (htable : r.Slotted dim elements perElement table) :
    allTerms schedule r dim source perElement table true =
      allTerms schedule' r dim source perElement table false := by
  refine schedule.leastFailure_eq_mapM _ List.pairwise_lt_range fun slot hslot e he => ?_
  obtain ⟨s, hs, hget, -⟩ := htable.exists_getElem slot (List.mem_range.mp hslot)
  rw [slotTerms, entryAt_eq_ok.mpr hget, lift_ok, ok_bind] at he
  cases e with
  | error cause => rfl
  | fault c => exact absurd he (faultless_subcellTerms hdim hr hsource _ hs c)

end Slots

/-! ### The whole array -/

theorem evaluateMetric_result (schedule : Schedule) (r : Refinement α) (order elements : Nat)
    (options : Options α) :
    (r.evaluateMetric schedule order elements options).result = (do
      let dim ← Outcome.dimension r.dim
      let slots ← r.slots dim order elements
      let source ← r.jacobianSource dim options
      let perElement ← (dim.subcells order : Checked Nat)
      discard (MetricArray.storage dim.components dim.vertices perElement elements : Checked Nat)
      let terms ← r.allTerms schedule dim source perElement slots options.parallel
      MetricArray.ofEntries dim.components dim.vertices perElement elements
        terms.flatten.toArray) := by
  simp only [evaluateMetric, Journaled.result_bind, Journaled.result_lift]
  congr 1
  funext dim
  congr 1
  funext slots
  congr 1
  funext source
  split <;> simp only [Journaled.result_bind, Journaled.result_report,
    Journaled.result_liftChecked, Journaled.result_discard, Journaled.result_lift, ok_bind]

/-- What an evaluation that succeeds establishes: the sub-cells fill the elements, and the terms of
every sub-cell are stored at its place. -/
structure Evaluated (r : Refinement α) (dim : Dimension) (order elements : Nat)
    (source : JacobianSource α) (m : MetricArray α) : Prop where
  dim_eq : r.dim = dim.value
  covers : r.Covers dim elements (order ^ dim.value)
  components_eq : m.components = dim.components
  points_eq : m.points = dim.vertices
  subcells_eq : m.subcells = order ^ dim.value
  elements_eq : m.elements = elements
  stored : ∀ s < r.subcells, ∃ terms,
    r.subcellTerms dim source (r.embedding s).parent s = .ok terms ∧
      ∀ i < dim.components * dim.vertices,
        (m.terms (r.embedding s).parent)[(r.embedding s).offset *
          (dim.components * dim.vertices) + i]? = terms[i]?

theorem evaluateMetric_spec {schedule : Schedule} {r : Refinement α} {order elements : Nat}
    {options : Options α} {m : MetricArray α}
    (h : (r.evaluateMetric schedule order elements options).result = .ok m) :
    ∃ dim source, r.jacobianSource dim options = .ok source ∧
      r.Evaluated dim order elements source m := by
  rw [evaluateMetric_result] at h
  obtain ⟨dim, hdim, h⟩ := bind_eq_ok.mp h
  obtain ⟨table, htable, h⟩ := bind_eq_ok.mp h
  obtain ⟨source, hsource, h⟩ := bind_eq_ok.mp h
  obtain ⟨perElement, hper, h⟩ := bind_eq_ok.mp h
  obtain ⟨-, -, h⟩ := bind_eq_ok.mp h
  obtain ⟨blocks, hblocks, h⟩ := bind_eq_ok.mp h
  obtain rfl := (Size.pow_eq_ok.mp (lift_eq_ok.mp hper)).2
  obtain ⟨hcomponents, hpoints, hsubcells, helements, hentries⟩ :=
    MetricArray.ofEntries_spec (lift_eq_ok.mp h)
  have hslots := slots_spec htable
  have hserial : (List.range table.size).mapM
      (r.slotTerms dim source (order ^ dim.value) table) = .ok blocks := by
    cases hp : options.parallel with
    | true => exact (allTerms_parallel_eq_ok schedule schedule).mp (hp ▸ hblocks)
    | false => rwa [hp] at hblocks
  refine ⟨dim, source, hsource, dimension_eq_ok.mp hdim, hslots.covers, hcomponents, hpoints,
    hsubcells, helements, fun s hs => ?_⟩
  have hplaced := hslots.placed s hs
  obtain ⟨terms, hblock, hterms⟩ := hslots.exists_block hserial hs
  refine ⟨terms, hterms, fun i hi => ?_⟩
  have hstride : m.elementStride = m.subcells * (dim.components * dim.vertices) := by
    rw [MetricArray.elementStride, hcomponents, hpoints, Nat.mul_comm]
  rw [m.getElem?_terms hentries (length_of_slotTerms hserial) hstride
    (helements ▸ hplaced.parent_lt) (hsubcells ▸ hplaced.offset_lt) hi, hsubcells]
  exact (congrArg (·.bind (·[i]?)) hblock).trans rfl

end Refinement

end LowOrderRefinement
