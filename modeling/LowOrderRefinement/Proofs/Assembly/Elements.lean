import Mathlib.Data.List.Perm.Subperm
import LowOrderRefinement.Assembly
import LowOrderRefinement.Proofs.Evaluation.EvaluatedTerms

/-! What the checks before the first element establish, and what an element then
contributes. The ordering of a space that is accepted is a permutation, so that
the node at every point of the grid has a degree of freedom; the contributions of
an element that is accepted are those of its kernel at these degrees of freedom,
and all of them lie inside of the matrix. -/

namespace LowOrderRefinement

variable {α : Type}

namespace Space

/-! ### The ordering -/

/-- The entries that are marked are distinct, in range and not marked before. -/
theorem exists_markEntries {seen : Array Bool} {xs : List Nat} {start : Nat} :
    (∃ marked, (xs.zipIdx start).foldlM (markEntry (α := α)) seen = .ok marked) ↔
      (∀ x ∈ xs, seen[x]? = some false) ∧ xs.Nodup := by
  induction xs generalizing seen start with
  | nil => exact ⟨fun _ => ⟨by simp, .nil⟩, fun _ => ⟨seen, rfl⟩⟩
  | cons x xs ih =>
    rw [List.zipIdx_cons, List.foldlM_cons]
    by_cases hx : seen[x]? = some false
    · have hmark : markEntry (α := α) seen (x, start) = .ok (seen.setIfInBounds x true) := by
        simp [markEntry, hx]
      have hset (y : Nat) : (seen.setIfInBounds x true)[y]? = some false ↔
          y ≠ x ∧ seen[y]? = some false := by
        rw [Array.getElem?_setIfInBounds]
        split
        · subst y
          split <;> simp
        · rename_i hne
          simp [Ne.symm hne]
      simp only [hmark, ok_bind, ih, hset, List.nodup_cons, List.forall_mem_cons, hx, true_and]
      grind
    · have hmark : ∃ e, markEntry (α := α) seen (x, start) = .error e := by
        unfold markEntry
        split
        · contradiction
        · exact ⟨_, rfl⟩
      obtain ⟨e, he⟩ := hmark
      simp [he, hx]

/-- An ordering is accepted when it is a permutation of the nodes. -/
theorem checkOrdering_eq_ok {nodes : Nat} {ordering : Array Nat} {u : Unit} :
    (checkOrdering nodes ordering : Outcome α Unit) = .ok u ↔
      ordering.toList.Perm (List.range nodes) := by
  have hseen (x : Nat) : (Array.replicate nodes false)[x]? = some false ↔ x < nodes := by
    simp [Array.getElem?_replicate]
  simp only [checkOrdering, bind_eq_ok, agree_eq_ok, exists_const, checkEntries, discard_eq_ok,
    exists_markEntries, hseen]
  constructor
  · rintro ⟨hsize, hlt, hnodup⟩
    have hsub := List.subperm_of_subset hnodup fun x hx => List.mem_range.mpr (hlt x hx)
    exact hsub.perm_of_length_le
      (by simp [hsize])
  · intro h
    refine ⟨?_, fun x hx => List.mem_range.mp (h.mem_iff.mp hx), h.nodup_iff.mpr List.nodup_range⟩
    simpa using h.length_eq.symm

/-! ### Degrees of freedom -/

/-- The degree of freedom of an element at a point of the grid, by the number of the point. -/
def dofAt (space : Space) (element node : Nat) : Nat :=
  (space.dofs element).getD (space.ordering.getD node 0) 0

/-- An element has one degree of freedom for each node, and all of them exist. -/
def Accepts (space : Space) (nodes element : Nat) : Prop :=
  (space.dofs element).size = nodes ∧ ∀ dof ∈ space.dofs element, dof < space.numDofs

theorem size_ordering {space : Space} {nodes : Nat}
    (hordering : space.ordering.toList.Perm (List.range nodes)) : space.ordering.size = nodes := by
  simpa using hordering.length_eq

theorem lt_of_mem_ordering {space : Space} {nodes : Nat}
    (hordering : space.ordering.toList.Perm (List.range nodes)) :
    ∀ place ∈ space.ordering, place < nodes := fun _ h =>
  List.mem_range.mp (hordering.mem_iff.mp (Array.mem_toList_iff.mpr h))

theorem place_lt_size {space : Space} {nodes element : Nat} (h : space.Accepts nodes element)
    (hordering : space.ordering.toList.Perm (List.range nodes)) :
    ∀ place ∈ space.ordering, place < (space.dofs element).size := by
  rw [h.1]
  exact lt_of_mem_ordering hordering

theorem exists_place {space : Space} {nodes element node : Nat} (h : space.Accepts nodes element)
    (hordering : space.ordering.toList.Perm (List.range nodes)) (hnode : node < nodes) :
    ∃ place, space.ordering[node]? = some place ∧
      (space.dofs element)[place]? = some (space.dofAt element node) := by
  have hsize : node < space.ordering.size := by rwa [size_ordering hordering]
  have hplace := place_lt_size h hordering _ (Array.getElem_mem hsize)
  refine ⟨_, Array.getElem?_eq_getElem hsize, ?_⟩
  simp [dofAt, Array.getD_eq_getD_getElem?, hsize, hplace]

theorem gather_eq_ok {space : Space} {nodes element : Nat} {dofs : Array Nat} :
    (space.gather nodes element : Outcome α (Array Nat)) = .ok dofs ↔
      space.Accepts nodes element ∧ space.dofs element = dofs := by
  simp only [gather, bind_eq_ok, agree_eq_ok, exists_const, Accepts]
  rw [and_assoc, eq_comm (a := nodes)]
  refine and_congr_right fun _ => ?_
  cases h : (space.dofs element).find? fun dof => decide (space.numDofs ≤ dof) with
  | none =>
    have hall := Array.find?_eq_none.mp h
    simp only [pure_eq_ok, decide_eq_true_eq, Nat.not_le] at hall ⊢
    exact ⟨fun he => ⟨hall, he⟩, And.right⟩
  | some dof =>
    have hmem := Array.mem_of_find?_eq_some h
    have hle : space.numDofs ≤ dof := by simpa using Array.find?_some h
    simp only [Outcome.refuse, reduceCtorEq, false_iff, not_and]
    intro hall
    exact absurd (hall dof hmem) (Nat.not_lt.mpr hle)

theorem place_lt {space : Space} {nodes element : Nat} (h : space.Accepts nodes element)
    (hnodes : 0 < nodes) (hordering : ∀ x ∈ space.ordering, x < nodes) (node : Nat) :
    space.ordering.getD node 0 < (space.dofs element).size := by
  rw [h.1, Array.getD_eq_getD_getElem?]
  cases hget : space.ordering[node]? with
  | none => exact hnodes
  | some x => exact hordering x (Array.mem_of_getElem? hget)

theorem dofAt_mem {space : Space} {nodes element : Nat} (h : space.Accepts nodes element)
    (hnodes : 0 < nodes) (hordering : ∀ x ∈ space.ordering, x < nodes) (node : Nat) :
    space.dofAt element node ∈ space.dofs element := by
  have hplace := place_lt h hnodes hordering node
  rw [dofAt, Array.getD_eq_getD_getElem?, Array.getElem?_eq_getElem hplace]
  exact Array.getElem_mem hplace

theorem dofAt_lt {space : Space} {nodes element : Nat} (h : space.Accepts nodes element)
    (hnodes : 0 < nodes) (hordering : ∀ x ∈ space.ordering, x < nodes) (node : Nat) :
    space.dofAt element node < space.numDofs :=
  h.2 _ (dofAt_mem h hnodes hordering node)

end Space

/-! ### The checks before the first element -/

namespace Assembly

variable [Scalar α]

/-- What the checks of a refinement and a space against each other establish. -/
structure Checks (r : Refinement α) (space : Space) (dim : Dimension) : Prop where
  basis_eq : space.basis = .nodalTensor
  space_dim : space.dim = dim.value
  refinement_dim : r.dim = dim.value
  order_pos : 0 < space.order
  order_le : space.order ≤ maxOrder
  ordering_perm : space.ordering.toList.Perm (List.range ((space.order + 1) ^ dim.value))

def Setup.ofOrder (dim : Dimension) (order : Nat) : Setup α :=
  { dim, nodes := (order + 1) ^ dim.value, kernel := Kernel.ofOrder dim order }

theorem select_eq_ok {dim : Dimension} {order : Nat} {kernel : Kernel α} :
    Kernel.select dim order = .ok kernel ↔
      0 < order ∧ order ≤ maxOrder ∧ kernel = Kernel.ofOrder dim order := by
  unfold Kernel.select
  split
  · simp only [Outcome.refuse, reduceCtorEq, false_iff]
    omega
  · simp only [Except.ok.injEq, eq_comm (a := kernel), iff_and_self, ← and_assoc]
    omega

theorem setup_spec {r : Refinement α} {space : Space} {s : Setup α}
    (h : setup r space = .ok s) : ∃ dim, Checks r space dim ∧ s = .ofOrder dim space.order := by
  unfold setup at h
  split at h
  · cases h
  · rename_i hbasis
    simp only [bind_eq_ok, pure_eq_ok, dimension_eq_ok, agree_eq_ok, exists_const, select_eq_ok,
      lift_eq_ok, Dimension.elementDofs, Size.add_eq_ok, Size.pow_eq_ok,
      Space.checkOrdering_eq_ok] at h
    obtain ⟨dim, hdim, hr, _, ⟨hpos, hle, rfl⟩, _, ⟨_, ⟨-, rfl⟩, -, rfl⟩, hperm, rfl⟩ := h
    exact ⟨dim, ⟨by simpa using hbasis, hdim, hr.symm, hpos, hle, hperm⟩, rfl⟩

omit [Scalar α] in
theorem Checks.ordering_lt {r : Refinement α} {space : Space} {dim : Dimension}
    (h : Checks r space dim) : ∀ x ∈ space.ordering, x < (space.order + 1) ^ dim.value :=
  Space.lt_of_mem_ordering h.ordering_perm

omit [Scalar α] in
theorem Checks.size_ordering {r : Refinement α} {space : Space} {dim : Dimension}
    (h : Checks r space dim) : space.ordering.size = (space.order + 1) ^ dim.value :=
  Space.size_ordering h.ordering_perm

end Assembly

/-! ### The contributions of an element -/

namespace Space

variable [Scalar α]

/-- The contributions of an element that is accepted: those of its kernel, at the degrees of
freedom of its nodes. -/
def elementTriplets (space : Space) (dim : Dimension) (m : MetricArray α) (element : Nat) :
    List (Triplet α) :=
  (Kernel.nodeTriplets dim space.order (m.terms element)).map
    (·.relabel (space.dofAt element))

theorem ofOrder_eq {dim : Dimension} {order : Nat} {terms : Array α} {dofs ordering : Array Nat}
    (hterms : terms.size = dim.components * dim.vertices * order ^ dim.value)
    (hordering : ordering.size = (order + 1) ^ dim.value)
    (hplaces : ordering.all (· < dofs.size) = true) :
    Kernel.ofOrder dim order terms dofs ordering =
      .ok ((Kernel.nodeTriplets dim order terms).map (·.relabel fun node =>
        dofs.getD (ordering.getD node 0) 0)) := by
  simp only [Kernel.ofOrder, require, hterms, hordering, decide_true]
  rw [← hordering, hplaces]
  rfl

/-- The metric terms of an element can be read, and are as many as its kernel asks for. -/
theorem element_eq_of_evaluated {r : Refinement α} {space : Space} {dim : Dimension}
    {source : JacobianSource α} {m : MetricArray α} (hs : Assembly.Checks r space dim)
    (hm : r.Evaluated dim space.order space.elements source m) {element : Nat}
    (helement : element < space.elements) :
    m.element element = .ok (m.terms element) ∧
      (m.terms element).size = dim.components * dim.vertices * space.order ^ dim.value := by
  have hstride : m.elementStride = dim.components * dim.vertices * space.order ^ dim.value := by
    rw [MetricArray.elementStride, hm.components_eq, hm.points_eq, hm.subcells_eq]
  have hpos : 0 < m.elementStride := by
    rw [hstride]
    exact Nat.mul_pos (by cases dim <;> decide) (Nat.pow_pos hs.order_pos)
  have hlt : element < m.elements := hm.elements_eq ▸ helement
  exact ⟨m.element_eq hpos hlt, (m.size_terms hlt).trans hstride⟩

/-- An element contributes as soon as its degrees of freedom are accepted. -/
theorem contributions_eq {r : Refinement α} {space : Space} {dim : Dimension}
    {source : JacobianSource α} {m : MetricArray α} (hs : Assembly.Checks r space dim)
    (hm : r.Evaluated dim space.order space.elements source m) {element : Nat}
    (helement : element < space.elements) :
    space.contributions (Kernel.ofOrder dim space.order) m ((space.order + 1) ^ dim.value) element =
      (space.gather ((space.order + 1) ^ dim.value) element).map
        fun _ => space.elementTriplets dim m element := by
  obtain ⟨hread, hterms⟩ := element_eq_of_evaluated hs hm helement
  rw [contributions, hread]
  cases hgather : (space.gather ((space.order + 1) ^ dim.value) element : Outcome α _) with
  | error e => rfl
  | ok dofs =>
    obtain ⟨⟨hdofs, -⟩, rfl⟩ := gather_eq_ok.mp hgather
    have hplaces : space.ordering.all (· < (space.dofs element).size) = true := by
      rw [hdofs, Array.all_eq_true_iff_forall_mem]
      exact fun x hx => decide_eq_true (hs.ordering_lt x hx)
    rw [lift_ok, ok_bind, ok_bind, ofOrder_eq hterms hs.size_ordering hplaces]
    rfl

theorem elementTriplets_lt {r : Refinement α} {space : Space} {dim : Dimension}
    (hs : Assembly.Checks r space dim) {m : MetricArray α} {element : Nat}
    (h : space.Accepts ((space.order + 1) ^ dim.value) element) :
    ∀ t ∈ space.elementTriplets dim m element, t.row < space.numDofs ∧ t.col < space.numDofs := by
  intro t ht
  obtain ⟨u, -, rfl⟩ := List.mem_map.mp ht
  have hlt := dofAt_lt h (Nat.pow_pos (Nat.succ_pos _)) hs.ordering_lt
  exact ⟨hlt u.row, hlt u.col⟩

end Space

/-! ### Stages of an assembly -/

namespace Assembly

variable [Scalar α]

/-- Everything before the first element: the checks and the metric terms. -/
def prepare (schedule : Schedule) (r : Refinement α) (space : Space) (options : Options α) :
    Outcome α (Setup α × MetricArray α) := do
  let s ← setup r space
  let m ← (r.evaluateMetric schedule space.order space.elements options).result
  return (s, m)

theorem prepare_spec {schedule : Schedule} {r : Refinement α} {space : Space}
    {options : Options α} {s : Setup α} {m : MetricArray α}
    (h : prepare schedule r space options = .ok (s, m)) :
    ∃ dim source, Checks r space dim ∧ s = .ofOrder dim space.order ∧
      r.jacobianSource dim options = .ok source ∧
      r.Evaluated dim space.order space.elements source m := by
  obtain ⟨s', hs, h⟩ := bind_eq_ok.mp h
  obtain ⟨m', hm, h⟩ := bind_eq_ok.mp h
  cases pure_eq_ok.mp h
  obtain ⟨dim, hchecks, rfl⟩ := setup_spec hs
  obtain ⟨dim', source, hsource, heval⟩ := Refinement.evaluateMetric_spec hm
  obtain rfl : dim = dim' :=
    Dimension.eq_of_value_eq (hchecks.refinement_dim.symm.trans heval.dim_eq)
  exact ⟨dim, source, hchecks, rfl, hsource, heval⟩

theorem accumulate_result (schedule : Schedule) (r : Refinement α) (space : Space)
    (options : Options α) :
    (accumulate schedule r space options).result = (do
      let (s, m) ← prepare schedule r space options
      pushElements schedule options.parallel (space.contributions s.kernel m s.nodes)
        space.elements (Builder.empty space.numDofs space.numDofs)) := by
  simp only [accumulate, prepare, Journaled.result_bind, Journaled.result_lift,
    Journaled.result_report, Journaled.result_pure, bind_assoc, ok_bind, pure_bind, bind_ok]

/-- An assembly hands all contributions to the conversion at once. -/
theorem assembleWith_result (convert : Conversion α) (schedule : Schedule) (r : Refinement α)
    (space : Space) (essential : List Nat) (options : Options α) :
    (assembleWith convert schedule r space essential options).result =
      (accumulate schedule r space options).result >>= fun b =>
        (b.finalizeWith convert essential).result.mapError Failure.fault := by
  simp only [assembleWith, Journaled.result_bind, Journaled.result_mapError]

theorem assemble_result (schedule : Schedule) (r : Refinement α) (space : Space)
    (essential : List Nat) (options : Options α) :
    (assemble schedule r space essential options).result = (do
      let (s, m) ← prepare schedule r space options
      let b ← pushElements schedule options.parallel (space.contributions s.kernel m s.nodes)
        space.elements (Builder.empty space.numDofs space.numDofs)
      (b.finalize essential).result.mapError Failure.fault) := by
  simp only [assemble, assembleWith_result, accumulate_result, bind_assoc]
  rfl

end Assembly

end LowOrderRefinement
