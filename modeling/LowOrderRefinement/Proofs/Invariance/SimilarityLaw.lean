import LowOrderRefinement.Proofs.Cell.Similarity

/-! The similarity law of an assembly. When all vertices are moved by a similarity, every
quadrature point ends as before, with its terms multiplied by one power of the scale
and its determinant by another. The slots, the elements and the matrix follow, since
nothing else that an assembly reads has changed. -/

namespace LowOrderRefinement

variable {K : Type} [ExactField K] {d : Nat}

instance (dim : Dimension) : NeZero dim.value := ⟨by cases dim <;> decide⟩

namespace Refinement

def moved [NeZero d] (r : Refinement K) (σ : Similarity K d) : Refinement K :=
  r.withVertices fun s => σ.image (r.vertices s)

theorem transform_accept {α β γ δ : Type} {g : α → β} {f : γ → δ} (parent s q : Nat)
    (x : Except α γ) :
    (accept parent s q x).transform g f = accept parent s q ((x.mapError g).map f) := by
  cases x <;> rfl

section Moved

variable {r : Refinement K} {options : Options K} (hfactors : r.factors = none)
  (hverify : options.verify = none) {dim : Dimension} (σ : Similarity K dim.value)

include hfactors hverify

/-- At every point the same is refused, and the terms are multiplied by a number. -/
theorem pointTerms_moved (s q : Nat) :
    (r.pointTerms dim options s q).transform (σ.scale ^ dim.value * ·)
        (List.map (σ.scale ^ (dim.value - 2) * ·)) =
      (r.moved σ).pointTerms dim options s q := by
  cases dim with
  | two =>
    have hcell : Outcome.transform (σ.scale ^ 2 * ·) (Quadrilateral.map σ.planar)
        (liftM (r.quadrilateral s)) = liftM ((r.moved σ).quadrilateral s) := by
      rw [Outcome.transform_lift]
      exact congrArg liftM (Quadrilateral.ofCoordinates_image σ (r.vertices s)).symm
    refine Outcome.transform_bind hcell fun cell _ => ?_
    refine Outcome.transform_bind (Outcome.transform_lift_id _) fun (w, ξ) _ => ?_
    dsimp only [id_eq]
    rw [planarJacobian_of_factors hfactors, planarJacobian_of_factors (r := r.moved σ) hfactors,
      lift_ok, lift_ok, ok_bind, ok_bind, confirms_of_verify hverify, confirms_of_verify hverify,
      if_pos rfl, if_pos rfl, Metric.planar_image σ (cell.jacobian_map σ ξ)]
    exact Outcome.transform_bind (transform_accept _ s q _) fun m _ => rfl
  | three =>
    have hcell : Outcome.transform (σ.scale ^ 3 * ·) (Hexahedron.map σ.solid)
        (liftM (r.hexahedron s)) = liftM ((r.moved σ).hexahedron s) := by
      rw [Outcome.transform_lift]
      exact congrArg liftM (Hexahedron.ofCoordinates_image σ (r.vertices s)).symm
    refine Outcome.transform_bind hcell fun cell _ => ?_
    refine Outcome.transform_bind (Outcome.transform_lift_id _) fun (w, ξ) _ => ?_
    dsimp only [id_eq]
    rw [Metric.solid_image σ (cell.jacobian_map σ ξ)]
    exact Outcome.transform_bind (transform_accept _ s q _) fun m _ => rfl

theorem Slotted.slotTerms_moved {order elements : Nat} {table : Array Nat}
    (h : r.Slotted dim elements (order ^ dim.value) table) (hr : r.dim = dim.value)
    {source source' : JacobianSource K} (hsource : r.jacobianSource dim options = .ok source)
    (hsource' : (r.moved σ).jacobianSource dim options = .ok source') {slot : Nat}
    (hslot : slot < table.size) :
    (r.slotTerms dim source (order ^ dim.value) table slot).transform (σ.scale ^ dim.value * ·)
        (List.map (σ.scale ^ (dim.value - 2) * ·)) =
      (r.moved σ).slotTerms dim source' (order ^ dim.value) table slot := by
  obtain ⟨s, hs, -, rfl⟩ := h.exists_getElem slot hslot
  have hmoved : (r.moved σ).Slotted dim elements (order ^ dim.value) table :=
    { h with placed := fun s hs => { h.placed s hs with } }
  rw [h.slotTerms_slotOf hsource hr hs]
  refine Eq.trans ?_ (hmoved.slotTerms_slotOf hsource' hr hs).symm
  rw [← Outcome.transform_mapM fun q _ => pointTerms_moved hfactors hverify σ s q]
  exact Outcome.transform_map (fun blocks => List.map_flatten) _

theorem Slotted.allTerms_moved {order elements : Nat} {table : Array Nat}
    (h : r.Slotted dim elements (order ^ dim.value) table) (hr : r.dim = dim.value)
    {source source' : JacobianSource K} (hsource : r.jacobianSource dim options = .ok source)
    (hsource' : (r.moved σ).jacobianSource dim options = .ok source') (schedule : Schedule)
    (parallel : Bool) :
    (r.allTerms schedule dim source (order ^ dim.value) table parallel).transform
        (σ.scale ^ dim.value * ·) (List.map (List.map (σ.scale ^ (dim.value - 2) * ·))) =
      (r.moved σ).allTerms schedule dim source' (order ^ dim.value) table parallel := by
  have hslot (slot : Nat) (hslot : slot ∈ List.range table.size) :=
    h.slotTerms_moved hfactors hverify σ hr hsource hsource' (List.mem_range.mp hslot)
  cases parallel with
  | false => exact Outcome.transform_mapM hslot
  | true => exact schedule.transform_leastFailure List.pairwise_lt_range hslot

/-- An evaluation ends as before, with all metric terms multiplied by a number. -/
theorem evaluateMetric_moved (hr : r.dim = dim.value) (schedule : Schedule)
    (order elements : Nat) :
    Outcome.transform (σ.scale ^ dim.value * ·) (MetricArray.map (σ.scale ^ (dim.value - 2) * ·))
        (r.evaluateMetric schedule order elements options).result =
      ((r.moved σ).evaluateMetric schedule order elements options).result := by
  have hdim : (Outcome.dimension r.dim : Outcome K Dimension) = .ok dim := dimension_eq_ok.mpr hr
  have hdim' : (Outcome.dimension (r.moved σ).dim : Outcome K Dimension) = .ok dim := hdim
  rw [evaluateMetric_result, evaluateMetric_result, hdim, hdim', ok_bind, ok_bind]
  refine Outcome.transform_bind (Outcome.transform_of_reports (r.kind_slots dim order elements))
    fun table htable => ?_
  have hsame : discard ((r.moved σ).jacobianSource dim options) =
      discard (r.jacobianSource dim options) :=
    discard_jacobianSource_withVertices hr fun s _ => σ.length_image _
  refine Outcome.transform_bind_of_discard hsame (kind_jacobianSource hr options)
    fun source source' hsource hsource' => ?_
  refine Outcome.transform_bind (Outcome.transform_lift_id _) fun perElement hper => ?_
  obtain rfl := (Size.pow_eq_ok.mp (lift_eq_ok.mp hper)).2
  refine Outcome.transform_bind (Outcome.transform_of_reports (Outcome.reports_lift _).discard)
    fun _ _ => ?_
  refine Outcome.transform_bind ((slots_spec htable).allTerms_moved hfactors hverify σ hr hsource
    hsource' schedule options.parallel) fun terms _ => ?_
  rw [Outcome.transform_lift, ← MetricArray.ofEntries_map, List.map_toArray, List.map_flatten]
  rfl

end Moved

end Refinement

namespace Assembly

theorem prepare_moved [NeZero d] (σ : Similarity K d) (schedule : Schedule) {r : Refinement K}
    (space : Space) {options : Options K} (hdim : r.dim = d) (hfactors : r.factors = none)
    (hverify : options.verify = none) :
    (prepare schedule r space options).transform (σ.scale ^ d * ·)
        (Prod.map id (MetricArray.map (σ.scale ^ (d - 2) * ·))) =
      prepare schedule (r.moved σ) space options := by
  refine Outcome.transform_bind (Outcome.transform_of_reports (kind_setup r space)) fun s hs => ?_
  obtain ⟨dim, hchecks, rfl⟩ := setup_spec hs
  obtain rfl : d = dim.value := hdim.symm.trans hchecks.refinement_dim
  have hmetric := Refinement.evaluateMetric_moved hfactors hverify σ hdim schedule space.order
    space.elements
  exact Outcome.transform_bind hmetric fun m _ => rfl

theorem transform_assemble [NeZero d] (σ : Similarity K d) (schedule : Schedule) {r : Refinement K}
    (space : Space) (essential : List Nat) {options : Options K} (hdim : r.dim = d)
    (hfactors : r.factors = none) (hverify : options.verify = none) :
    Outcome.transform (σ.scale ^ d * ·) (Csr.map (σ.scale ^ (d - 2) * ·))
        (assemble schedule r space essential options).result =
      (assemble schedule (r.moved σ) space essential options).result := by
  rw [assemble_result, assemble_result]
  refine Outcome.transform_bind (prepare_moved σ schedule space hdim hfactors hverify)
    fun (s, m) hprepare => ?_
  obtain ⟨dim, -, -, rfl, -, -⟩ := prepare_spec hprepare
  have hpush := pushElements_map schedule options.parallel
    (fun e => space.contributions_map (σ.scale ^ d * ·) (σ.scale ^ (d - 2)) dim space.order
      ((space.order + 1) ^ dim.value) m e) space.elements
    (Builder.empty space.numDofs space.numDofs)
  rw [Builder.map_empty] at hpush
  refine Outcome.transform_bind hpush fun b _ => ?_
  refine (Outcome.transform_lift (b.finalize essential).result).trans ?_
  rw [← finalize_map (fun x y => mul_add _ x y) (mul_zero _)]
  rfl

/-- A similarity of all vertices leaves the pattern of the matrix as it is and multiplies the matrix
by a power of the scale. Where the assembly fails it still fails, in the same way and at the same
point, with a reported determinant multiplied by the scale once for each dimension. -/
theorem assemble_similar [NeZero d] (σ : Similarity K d) (schedule : Schedule) (r : Refinement K)
    (space : Space) (essential : List Nat) (options : Options K) (hdim : r.dim = d)
    (hfactors : r.factors = none) (hverify : options.verify = none) :
    let result := (assemble schedule r space essential options).result
    let result' := (assemble schedule (r.moved σ) space essential options).result
    (∀ a, result = .ok a → result' = .ok (a.map (σ.scale ^ (d - 2) * ·)) ∧
      (a.map (σ.scale ^ (d - 2) * ·)).pattern = a.pattern) ∧
    ∀ failure, result = .error failure → result' = .error (failure.map (σ.scale ^ d * ·)) := by
  intro result result'
  have hresult : Outcome.transform (σ.scale ^ d * ·) (Csr.map (σ.scale ^ (d - 2) * ·)) result =
      result' := transform_assemble σ schedule space essential hdim hfactors hverify
  refine ⟨fun a ha => ⟨?_, a.pattern_map _⟩, fun failure hfailure => ?_⟩
  · rw [← hresult, ha, Outcome.transform_ok]
  · rw [← hresult, hfailure, Outcome.transform_error]

/-- A rotation of the plane that doubles all lengths. -/
def planarTurn : Similarity ℚ 2 where
  scale := 2
  rotation := !![3 / 5, -(4 / 5); 4 / 5, 3 / 5]
  translation := ![1, -1]
  scale_pos := by decide +kernel
  transpose_mul_rotation := by decide +kernel
  det_rotation := by decide +kernel

/-- A rotation of space about a diagonal that doubles all lengths. -/
def solidTurn : Similarity ℚ 3 where
  scale := 2
  rotation := !![2 / 3, -(1 / 3), 2 / 3; 2 / 3, 2 / 3, -(1 / 3); -(1 / 3), 2 / 3, 2 / 3]
  translation := ![1, -1, 1 / 2]
  scale_pos := by decide +kernel
  transpose_mul_rotation := by decide +kernel
  det_rotation := by decide +kernel

def leaningBlock : Refinement ℚ :=
  .ofTable 3 #[⟨.hexahedron, ⟨0, 0⟩, [0, 0, 0, 1, 0, 0, 1, 1, 0, 0, 1, 0,
    1 / 4, 0, 1, 5 / 4, 1 / 2, 1, 3 / 2, 1, 5 / 4, 0, 1, 1]⟩] none

def cornerNodes : Space :=
  .ofTable 3 .nodalTensor 1 8 #[#[0, 1, 2, 3, 4, 5, 6, 7]] #[0, 1, 3, 2, 4, 5, 7, 6]

/-- The matrix of the turned block is twice that of the block, and the determinant at the folded
vertex of the turned darts is four times that of the darts. -/
theorem assemble_similar_turned :
    (∃ a, (assemble .inOrder leaningBlock cornerNodes []
        (Options.standard.withParallel false)).result = .ok a ∧ a.entry? 0 5 = some (1 / 16) ∧
      (assemble .inOrder (leaningBlock.moved solidTurn) cornerNodes []
        (Options.standard.withParallel false)).result = .ok (a.map (2 * ·))) ∧
    (assemble .inOrder Refinement.darts sharedNodes []
      (Options.standard.withParallel false)).result =
        .error (.error (.nonPositiveDeterminant 0 1 3 (-(1 / 2)))) ∧
    (assemble .inOrder (Refinement.darts.moved planarTurn) sharedNodes []
      (Options.standard.withParallel false)).result =
        .error (.error (.nonPositiveDeterminant 0 1 3 (-2))) := by
  have hblock : (assemble .inOrder leaningBlock cornerNodes []
      (Options.standard.withParallel false)).result.map (fun a => a.entry? 0 5) =
        .ok (some (1 / 16)) := by decide +kernel
  have hdarts : (assemble .inOrder Refinement.darts sharedNodes []
      (Options.standard.withParallel false)).result.map Csr.nnz =
        .error (.error (.nonPositiveDeterminant 0 1 3 (-(1 / 2)))) := by decide +kernel
  obtain ⟨a, ha, hentry⟩ := map_eq_ok.mp hblock
  have hfolded := map_eq_error.mp hdarts
  obtain ⟨hok, -⟩ := assemble_similar solidTurn .inOrder leaningBlock cornerNodes []
    (Options.standard.withParallel false) rfl rfl rfl
  obtain ⟨-, herror⟩ := assemble_similar planarTurn .inOrder Refinement.darts sharedNodes []
    (Options.standard.withParallel false) rfl rfl rfl
  have hsolid : solidTurn.scale ^ (3 - 2) = 2 := by norm_num [solidTurn]
  have hplanar : planarTurn.scale ^ 2 * -(1 / 2) = -2 := by norm_num [planarTurn]
  refine ⟨⟨a, ha, hentry, ?_⟩, hfolded, ?_⟩
  · rw [← hsolid]
    exact (hok a ha).1
  · rw [← hplanar]
    exact herror _ hfolded

end Assembly

end LowOrderRefinement
