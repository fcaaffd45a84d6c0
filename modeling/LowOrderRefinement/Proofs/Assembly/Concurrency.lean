import LowOrderRefinement.Proofs.Assembly.Batches
import LowOrderRefinement.Proofs.ExactField
import LowOrderRefinement.Table

/-! Concurrent and serial assembly. Both succeed for the same input and then return
the same matrix, whatever the arithmetic and whatever the schedules. They also
agree on every error up to and including the evaluation of metric terms. When
elements fail, serial assembly reports the least of them and concurrent assembly
one in the same batch. -/

namespace LowOrderRefinement.Assembly

variable {α : Type}

/-! ### Batches -/

/-- The first `count` batches list the elements before the end of the last of them. -/
theorem flatten_map_batches (elements count : Nat) :
    ((List.range count).map fun b =>
      List.range' (b * batchSize) (min batchSize (elements - b * batchSize))).flatten =
      List.range (min elements (count * batchSize)) := by
  induction count with
  | zero => simp
  | succ count ih =>
    rw [List.range_succ, List.map_append, List.flatten_append, ih, List.map_singleton,
      List.flatten_singleton, Nat.succ_mul, List.range_eq_range', List.range_eq_range']
    rcases Nat.le_total elements (count * batchSize) with h | h
    · rw [Nat.sub_eq_zero_of_le h, Nat.min_zero, List.range'_zero, List.append_nil,
        Nat.min_eq_left h, Nat.min_eq_left (Nat.le_add_right_of_le h)]
    · have hstop : min elements (count * batchSize + batchSize) =
          count * batchSize + min batchSize (elements - count * batchSize) := by omega
      rw [hstop, Nat.min_eq_right h, ← List.range'_append_1, Nat.zero_add]

theorem flatten_batches (elements : Nat) : (batches elements).flatten = List.range elements := by
  rw [batches, flatten_map_batches, Nat.min_eq_left]
  simp only [batchSize]
  omega

theorem pairwise_of_mem_batches {elements : Nat} {batch : List Nat}
    (h : batch ∈ batches elements) : batch.Pairwise (· < ·) := by
  obtain ⟨b, -, rfl⟩ := List.mem_map.mp h
  exact List.pairwise_lt_range'

theorem mem_batch {elements b e : Nat} :
    e ∈ List.range' (b * batchSize) (min batchSize (elements - b * batchSize)) ↔
      e / batchSize = b ∧ e < elements := by
  rw [List.mem_range'_1]
  simp only [batchSize]
  omega

theorem div_eq_of_batches_eq {elements : Nat} {before after : List (List Nat)} {batch : List Nat}
    (h : batches elements = before ++ batch :: after) {e : Nat} :
    (e ∈ batch ↔ e / batchSize = before.length ∧ e < elements) ∧
      (e < elements → e / batchSize < before.length → e ∈ before.flatten) := by
  obtain ⟨first, rest, hrange, hbefore, hrest⟩ := List.map_eq_append_iff.mp h
  obtain ⟨b, rest, rfl, rfl, -⟩ := List.map_eq_cons_iff.mp hrest
  obtain ⟨rfl, -⟩ := range_eq_append_cons hrange
  have hlength : before.length = b := by rw [← hbefore]; simp
  rw [hlength]
  refine ⟨mem_batch, fun he hlt => ?_⟩
  rw [← hbefore]
  exact List.mem_flatten.mpr ⟨_, List.mem_map.mpr ⟨_, List.mem_range.mpr hlt, rfl⟩,
    mem_batch.mpr ⟨rfl, he⟩⟩

/-! ### The element loop -/

/-- An element that fails, while all elements before it succeed. -/
structure LeastFailing (task : Nat → Outcome α (List (Triplet α))) (elements e : Nat)
    (c : Failure α) : Prop where
  lt : e < elements
  fails : task e = .error c
  before : ∀ e' < e, ∃ ts, task e' = .ok ts

section Loop

variable {task : Nat → Outcome α (List (Triplet α))} {b : Builder α} {elements : Nat}

theorem pushInOrder_eq (h : Inside b task (List.range elements)) :
    pushInOrder task elements b =
      ((List.range elements).mapM task).map fun tss => b.accept tss.flatten :=
  foldlM_push h

theorem pushInBatches_eq (schedule : Schedule) :
    pushInBatches schedule task elements b =
      (batches elements).foldlM (pushBatch schedule task) b := rfl

theorem pushInBatches_of_ok (schedule : Schedule) (h : Inside b task (List.range elements))
    (hok : ∀ e < elements, ∃ ts, task e = .ok ts) :
    pushInBatches schedule task elements b = pushInOrder task elements b := by
  obtain ⟨tss, htss⟩ : ∃ tss, (List.range elements).mapM task = .ok tss :=
    exists_mapM_eq_ok fun e he => hok e (List.mem_range.mp he)
  rw [pushInOrder_eq h, htss, pushInBatches_eq]
  rw [← flatten_batches elements] at h htss
  exact foldlM_pushBatch_of_ok schedule (fun _ => pairwise_of_mem_batches) h htss

theorem pushInOrder_of_error (h : Inside b task (List.range elements)) {e : Nat} {c : Failure α}
    (he : LeastFailing task elements e c) : pushInOrder task elements b = .error c := by
  rw [pushInOrder_eq h, mapM_range_eq_error.mpr ⟨e, he.lt, he.fails, he.before⟩]
  rfl

/-- In batches, an element that fails ends the loop, in the batch of the least one that does. -/
theorem pushInBatches_of_error (schedule : Schedule) (h : Inside b task (List.range elements))
    {e : Nat} {c : Failure α} (he : LeastFailing task elements e c) :
    ∃ e' < elements, e' / batchSize = e / batchSize ∧
      ∃ c', task e' = .error c' ∧ pushInBatches schedule task elements b = .error c' := by
  have herror := mapM_range_eq_error.mpr ⟨e, he.lt, he.fails, he.before⟩
  rw [← flatten_batches elements] at h herror
  obtain ⟨before, batch, after, hbatches, hbefore, e', he', c', htask, hpush⟩ :=
    foldlM_pushBatch_of_error schedule (fun _ => pairwise_of_mem_batches) h herror
  obtain ⟨hbatch, hlt⟩ := (div_eq_of_batches_eq hbatches).1.mp he'
  have hle : e / batchSize ≤ e' / batchSize := by
    refine Nat.div_le_div_right (Nat.not_lt.mp fun hlt => ?_)
    obtain ⟨ts, hts⟩ := he.before e' hlt
    cases htask.symm.trans hts
  have hnotlt : ¬e / batchSize < before.length := fun hlt => by
    obtain ⟨ts, hts⟩ := hbefore e ((div_eq_of_batches_eq (e := e) hbatches).2 he.lt hlt)
    cases he.fails.symm.trans hts
  exact ⟨e', hlt, by omega, c', htask, (pushInBatches_eq schedule).trans hpush⟩

end Loop

/-! ### Both modes -/

section Modes

variable [Scalar α] (schedule schedule' : Schedule) (r : Refinement α) (space : Space)
  (options : Options α)

@[simp] theorem jacobianSource_withParallel (dim : Dimension) (parallel : Bool) :
    r.jacobianSource dim (options.withParallel parallel) = r.jacobianSource dim options := rfl

omit [Scalar α] in
@[simp] theorem parallel_withParallel (parallel : Bool) :
    (options.withParallel parallel).parallel = parallel := rfl

theorem evaluateMetric_parallel_eq_ok {order elements : Nat} {m : MetricArray α} :
    (r.evaluateMetric schedule order elements (options.withParallel true)).result = .ok m ↔
      (r.evaluateMetric schedule' order elements (options.withParallel false)).result = .ok m := by
  simp only [Refinement.evaluateMetric_result, bind_eq_ok, jacobianSource_withParallel,
    parallel_withParallel, Refinement.allTerms_parallel_eq_ok schedule schedule']

/-- With complete vertices, the metric terms are evaluated or refused alike. -/
theorem evaluateMetric_parallel {order elements : Nat} (hr : r.Complete) :
    (r.evaluateMetric schedule order elements (options.withParallel true)).result =
      (r.evaluateMetric schedule' order elements (options.withParallel false)).result := by
  simp only [Refinement.evaluateMetric_result, jacobianSource_withParallel, parallel_withParallel]
  refine bind_congr_of_ok fun dim hdim => bind_congr_of_ok fun table htable =>
    bind_congr_of_ok fun source hsource => bind_congr_of_ok fun perElement hper =>
    bind_congr_of_ok fun _ _ => ?_
  obtain rfl := (Size.pow_eq_ok.mp (lift_eq_ok.mp hper)).2
  have hdim := dimension_eq_ok.mp hdim
  rw [Refinement.allTerms_parallel schedule schedule' hdim hr
    (Refinement.suits_of_jacobianSource hdim hsource) (Refinement.slots_spec htable)]

theorem prepare_parallel_eq_ok {x : Setup α × MetricArray α} :
    prepare schedule r space (options.withParallel true) = .ok x ↔
      prepare schedule' r space (options.withParallel false) = .ok x := by
  simp only [prepare, bind_eq_ok, evaluateMetric_parallel_eq_ok schedule schedule']

theorem prepare_parallel (hr : r.Complete) :
    prepare schedule r space (options.withParallel true) =
      prepare schedule' r space (options.withParallel false) := by
  simp only [prepare, evaluateMetric_parallel schedule schedule' r options hr]

variable {schedule schedule' r space options}

theorem assemble_of_prepare_eq_error {essential : List Nat} {e : Failure α}
    (h : prepare schedule r space options = .error e) :
    (assemble schedule r space essential options).result = .error e := by
  rw [assemble_result, h]
  rfl

theorem assemble_of_prepare_eq_ok {essential : List Nat} {s : Setup α} {m : MetricArray α}
    (h : prepare schedule r space options = .ok (s, m)) :
    (assemble schedule r space essential options).result =
      pushElements schedule options.parallel (space.contributions s.kernel m s.nodes)
        space.elements (Builder.empty space.numDofs space.numDofs) >>=
        fun b => (b.finalize essential).result.mapError Failure.fault := by
  rw [assemble_result, h]
  rfl

/-- After the checks, elements contribute only inside of the matrix. -/
theorem inside_of_prepare {s : Setup α} {m : MetricArray α}
    (h : prepare schedule r space options = .ok (s, m)) :
    Inside (Builder.empty space.numDofs space.numDofs) (space.contributions s.kernel m s.nodes)
      (List.range space.elements) := by
  obtain ⟨dim, source, hchecks, rfl, -, heval⟩ := prepare_spec h
  intro e he ts hts t ht
  rw [Setup.ofOrder, Space.contributions_eq hchecks heval (List.mem_range.mp he),
    map_eq_ok] at hts
  obtain ⟨dofs, hdofs, rfl⟩ := hts
  have haccepts := (Space.gather_eq_ok.mp hdofs).1
  rw [Builder.admits_empty, Bool.and_eq_true, decide_eq_true_eq, decide_eq_true_eq]
  exact Space.elementTriplets_lt hchecks haccepts t ht

/-- Elements that all succeed lead to the same matrix, or to the same failure after them. -/
theorem assemble_parallel_of_ok {essential : List Nat} {s : Setup α} {m : MetricArray α}
    (h : prepare schedule' r space (options.withParallel false) = .ok (s, m))
    (hok : ∀ e < space.elements, ∃ ts, space.contributions s.kernel m s.nodes e = .ok ts) :
    (assemble schedule r space essential (options.withParallel true)).result =
      (assemble schedule' r space essential (options.withParallel false)).result := by
  have hparallel := (prepare_parallel_eq_ok schedule schedule' r space options).mpr h
  rw [assemble_of_prepare_eq_ok h, assemble_of_prepare_eq_ok hparallel]
  simp only [parallel_withParallel, pushElements, if_true, Bool.false_eq_true, if_false]
  rw [pushInBatches_of_ok schedule (inside_of_prepare h) hok]

/-- The least element that fails is the one that serial assembly reports; concurrent assembly
reports one in its batch. -/
theorem assemble_of_leastFailing {essential : List Nat} {s : Setup α} {m : MetricArray α}
    (h : prepare schedule' r space (options.withParallel false) = .ok (s, m)) {e : Nat}
    {c : Failure α}
    (hleast : LeastFailing (space.contributions s.kernel m s.nodes) space.elements e c) :
    (assemble schedule' r space essential (options.withParallel false)).result = .error c ∧
      ∃ e' < space.elements, e' / batchSize = e / batchSize ∧
        ∃ c', space.contributions s.kernel m s.nodes e' = .error c' ∧
          (assemble schedule r space essential (options.withParallel true)).result =
            .error c' := by
  have hparallel := (prepare_parallel_eq_ok schedule schedule' r space options).mpr h
  have hinside := inside_of_prepare h
  rw [assemble_of_prepare_eq_ok h, assemble_of_prepare_eq_ok hparallel]
  simp only [parallel_withParallel, pushElements, if_true, Bool.false_eq_true, if_false]
  obtain ⟨e', he', hbatch, c', htask, hpush⟩ := pushInBatches_of_error schedule hinside hleast
  rw [pushInOrder_of_error hinside hleast, hpush]
  exact ⟨rfl, e', he', hbatch, c', htask, rfl⟩

end Modes

theorem exists_leastFailing {task : Nat → Outcome α (List (Triplet α))} {elements : Nat}
    (h : ¬∀ e < elements, ∃ ts, task e = .ok ts) : ∃ e c, LeastFailing task elements e c := by
  cases htss : (List.range elements).mapM task with
  | ok tss =>
    refine absurd (fun e he => ?_) h
    obtain ⟨ts, -, hts⟩ := exists_of_mapM_eq_ok htss (List.mem_range.mpr he)
    exact ⟨ts, hts⟩
  | error c =>
    obtain ⟨e, he, hfails, hbefore⟩ := mapM_range_eq_error.mp htss
    exact ⟨e, c, he, hfails, hbefore⟩

/-- Concurrent and serial assembly succeed for the same input and with the same matrix. -/
theorem assemble_parallel_eq_ok [Scalar α] (schedule schedule' : Schedule) (r : Refinement α)
    (space : Space) (essential : List Nat) (options : Options α) (a : Csr α) :
    (assemble schedule r space essential (options.withParallel true)).result = .ok a ↔
      (assemble schedule' r space essential (options.withParallel false)).result = .ok a := by
  cases hserial : prepare schedule' r space (options.withParallel false) with
  | error e =>
    rw [assemble_of_prepare_eq_error hserial]
    cases hparallel : prepare schedule r space (options.withParallel true) with
    | error e' => simp [assemble_of_prepare_eq_error hparallel]
    | ok x =>
      have hok := (prepare_parallel_eq_ok schedule schedule' r space options).mp hparallel
      cases hok.symm.trans hserial
  | ok x =>
    by_cases hok : ∀ e < space.elements,
        ∃ ts, space.contributions x.1.kernel x.2 x.1.nodes e = .ok ts
    · rw [assemble_parallel_of_ok hserial hok]
    · obtain ⟨e, c, hleast⟩ := exists_leastFailing hok
      obtain ⟨hs, _, -, -, _, -, hp⟩ := assemble_of_leastFailing hserial hleast
      rw [hs, hp]
      simp

/-- Concurrent assembly and serial assembly, each under any schedule, succeed for the same input
and with the same matrix. What fails before the first element fails alike, for refinements whose
vertices are complete. Of the elements that fail, serial assembly reports the least one, and
concurrent assembly one that fails in the same batch. -/
theorem assemble_parallel [Scalar α] (schedule schedule' : Schedule) (r : Refinement α)
    (space : Space) (essential : List Nat) (options : Options α) :
    let prepared (s : Schedule) (parallel : Bool) :=
      prepare s r space (options.withParallel parallel)
    let assembled (s : Schedule) (parallel : Bool) :=
      (assemble s r space essential (options.withParallel parallel)).result
    (∀ a, assembled schedule true = .ok a ↔ assembled schedule' false = .ok a) ∧
    (r.Complete → prepared schedule true = prepared schedule' false) ∧
    (∀ s parallel e, prepared s parallel = .error e → assembled s parallel = .error e) ∧
    ∀ s m, prepared schedule' false = .ok (s, m) →
      let task := space.contributions s.kernel m s.nodes
      ((∀ e < space.elements, ∃ ts, task e = .ok ts) →
        assembled schedule true = assembled schedule' false) ∧
      ((¬∀ e < space.elements, ∃ ts, task e = .ok ts) →
        ∃ e c, LeastFailing task space.elements e c ∧ assembled schedule' false = .error c ∧
          ∃ e' < space.elements, e' / batchSize = e / batchSize ∧
            ∃ c', task e' = .error c' ∧ assembled schedule true = .error c') := by
  intro prepared assembled
  have herror (s : Schedule) (parallel : Bool) (e : Failure α)
      (h : prepared s parallel = .error e) : assembled s parallel = .error e :=
    assemble_of_prepare_eq_error h
  refine ⟨assemble_parallel_eq_ok schedule schedule' r space essential options,
    prepare_parallel schedule schedule' r space options, herror,
    fun s m h => ⟨assemble_parallel_of_ok h, fun hfails => ?_⟩⟩
  obtain ⟨e, c, hleast⟩ := exists_leastFailing hfails
  exact ⟨e, c, hleast, assemble_of_leastFailing h hleast⟩

/-- Two unit squares side by side, each of them an element of order one. -/
def twoSquares : Refinement ℚ :=
  .ofTable 2 #[⟨.quadrilateral, ⟨0, 0⟩, [0, 0, 1, 0, 1, 1, 0, 1]⟩,
    ⟨.quadrilateral, ⟨1, 0⟩, [1, 0, 2, 0, 2, 1, 1, 1]⟩] none

/-- A space over two squares in which both elements have a node that does not exist. -/
def strayNodes : Space :=
  .ofTable 2 .nodalTensor 1 6 #[#[0, 1, 4, 7], #[1, 2, 8, 4]] #[0, 1, 3, 2]

/-- With stray nodes in both elements, visiting the second one first still prepares the same terms
and still ends without a matrix. -/
theorem assemble_parallel_strayNodes :
    twoSquares.Complete ∧
    prepare ⟨List.reverse, List.reverse_perm⟩ twoSquares strayNodes
        (Options.standard.withParallel true) =
      prepare .inOrder twoSquares strayNodes (Options.standard.withParallel false) ∧
    ∀ a, (assemble ⟨List.reverse, List.reverse_perm⟩ twoSquares strayNodes []
      (Options.standard.withParallel true)).result ≠ .ok a := by
  have hcomplete : twoSquares.Complete := by
    show ∀ s < 2, (twoSquares.vertices s).length = 8
    decide
  have hserial : (assemble .inOrder twoSquares strayNodes []
      (Options.standard.withParallel false)).result.isOk = false := by decide +kernel
  obtain ⟨hok, hprepared, -⟩ := assemble_parallel ⟨List.reverse, List.reverse_perm⟩ .inOrder
    twoSquares strayNodes [] Options.standard
  refine ⟨hcomplete, hprepared hcomplete, fun a ha => ?_⟩
  have hmatrix : (assemble .inOrder twoSquares strayNodes []
      (Options.standard.withParallel false)).result = .ok a := (hok a).mp ha
  rw [hmatrix] at hserial
  cases hserial

end LowOrderRefinement.Assembly
