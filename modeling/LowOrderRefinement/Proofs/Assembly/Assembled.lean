import LowOrderRefinement.Proofs.ExactField
import LowOrderRefinement.Proofs.Assembly.Concurrency
import LowOrderRefinement.Proofs.Sparse.Conversion
import LowOrderRefinement.Proofs.Stencil.ElementEnergy
import LowOrderRefinement.Proofs.Sparse.BilinearForm

/-! The matrix that an assembly returns. Whatever the mode and the schedule, it sums the
contributions of all elements and clears the rows and columns of essential degrees
of freedom. In exact arithmetic the bilinear form of the sum is the total energy
of the sub-cells, at the values on their corners. -/

namespace LowOrderRefinement

variable {α : Type}

/-! ### The contributions -/

namespace Space

def allTriplets [Scalar α] (space : Space) (dim : Dimension) (m : MetricArray α) :
    List (Triplet α) :=
  (List.range space.elements).flatMap (space.elementTriplets dim m)

end Space

namespace Assembly

theorem pushElements_eq_ok {schedule : Schedule} {parallel : Bool}
    {task : Nat → Outcome α (List (Triplet α))} {elements : Nat} {b b' : Builder α}
    (hinside : Inside b task (List.range elements))
    (h : pushElements schedule parallel task elements b = .ok b') :
    ∃ tss, (List.range elements).mapM task = .ok tss ∧ b' = b.accept tss.flatten := by
  have hserial : pushInOrder task elements b = .ok b' := by
    cases parallel with
    | false => exact h
    | true =>
      by_cases hok : ∀ e < elements, ∃ ts, task e = .ok ts
      · exact (pushInBatches_of_ok schedule hinside hok).symm.trans h
      · obtain ⟨e, c, hleast⟩ := exists_leastFailing hok
        obtain ⟨-, -, -, c', -, herror⟩ := pushInBatches_of_error schedule hinside hleast
        cases herror.symm.trans h
  rw [pushInOrder_eq hinside] at hserial
  obtain ⟨tss, htss, rfl⟩ := map_eq_ok.mp hserial
  exact ⟨tss, htss, rfl⟩

theorem eliminate_result [Scalar α] (m : Csr α) (essential : List Nat) :
    (m.eliminate essential).result =
      .ok (m.clear fun i => (m.essentialTable essential).getD i false) := by
  simp only [Csr.eliminate, Journaled.result_bind, Journaled.result_ite]
  split <;> simp

theorem finalizeWith_eq_eliminate [Scalar α] (convert : Conversion α) (b : Builder α)
    (essential : List Nat) :
    (b.finalizeWith convert essential).result = (do
      Size.reserve (b.nrows + 1)
      Size.reserve b.ncols
      ((convert b.nrows b.ncols b.entries).eliminate essential).result) := by
  simp only [Builder.finalizeWith, Journaled.result_bind, Journaled.result_report, ok_bind]
  rfl

theorem finalize_eq_eliminate [Scalar α] (b : Builder α) (essential : List Nat) :
    (b.finalize essential).result = (do
      Size.reserve (b.nrows + 1)
      Size.reserve b.ncols
      ((Csr.ofTriplets b.nrows b.ncols b.entries).eliminate essential).result) :=
  finalizeWith_eq_eliminate Csr.ofTriplets b essential

theorem finalize_result [Scalar α] (b : Builder α) (essential : List Nat) :
    (b.finalize essential).result = (do
      Size.reserve (b.nrows + 1)
      Size.reserve b.ncols
      let m := Csr.ofTriplets b.nrows b.ncols b.entries
      return m.clear fun i => (m.essentialTable essential).getD i false) := by
  simp only [finalize_eq_eliminate, eliminate_result]
  rfl

/-- Whether there is a result does not depend on the conversion. -/
theorem finalizeWith_eq_ok [Scalar α] {convert : Conversion α} {b : Builder α}
    {essential : List Nat} {a : Csr α} :
    (b.finalizeWith convert essential).result = .ok a ↔
      (Size.reserve (b.nrows + 1) = .ok () ∧ Size.reserve b.ncols = .ok ()) ∧
        a = (convert b.nrows b.ncols b.entries).clear fun i =>
          ((convert b.nrows b.ncols b.entries).essentialTable essential).getD i false := by
  rw [finalizeWith_eq_eliminate, eliminate_result]
  simp only [bind_eq_ok, Except.ok.injEq, and_assoc, eq_comm (a := a)]
  constructor
  · rintro ⟨_, hrows, _, hcols, h⟩
    exact ⟨hrows, hcols, h⟩
  · rintro ⟨hrows, hcols, h⟩
    exact ⟨(), hrows, (), hcols, h⟩

/-- What the contributions of a space have been computed from. -/
structure Contributing [Scalar α] (r : Refinement α) (space : Space) (options : Options α)
    (dim : Dimension) (source : JacobianSource α) (m : MetricArray α) : Prop where
  checks : Checks r space dim
  source_eq : r.jacobianSource dim options = .ok source
  evaluated : r.Evaluated dim space.order space.elements source m
  accepts : ∀ e < space.elements, space.Accepts ((space.order + 1) ^ dim.value) e

/-- What an assembly that succeeds has computed. -/
structure Assembled [Scalar α] (r : Refinement α) (space : Space) (essential : List Nat)
    (options : Options α) (dim : Dimension) (source : JacobianSource α) (m : MetricArray α)
    (a : Csr α) : Prop extends Contributing r space options dim source m where
  matrix_eq : a =
    let sum := Csr.ofTriplets space.numDofs space.numDofs (space.allTriplets dim m).toArray
    sum.clear fun i => (sum.essentialTable essential).getD i false

section Contributing

variable [Scalar α] {schedule : Schedule} {r : Refinement α} {space : Space} {options : Options α}
  {dim : Dimension} {source : JacobianSource α} {m : MetricArray α}

theorem Contributing.allTriplets_lt (h : Contributing r space options dim source m) :
    ∀ t ∈ space.allTriplets dim m, t.row < space.numDofs ∧ t.col < space.numDofs := by
  intro t ht
  obtain ⟨e, he, ht⟩ := List.mem_flatMap.mp ht
  exact Space.elementTriplets_lt h.checks (h.accepts e (List.mem_range.mp he)) t ht

/-- The builder that has accepted all contributions of a space. -/
def collected (space : Space) (dim : Dimension) (m : MetricArray α) : Builder α :=
  (Builder.empty space.numDofs space.numDofs).accept (space.allTriplets dim m)

theorem Contributing.entries_collected (h : Contributing r space options dim source m) :
    (collected space dim m).entries = (space.allTriplets dim m).toArray := by
  have hinside : ∀ t ∈ space.allTriplets dim m,
      (Builder.empty space.numDofs space.numDofs).admits t = true := by
    intro t ht
    simpa [Builder.admits_empty] using h.allTriplets_lt t ht
  rw [collected, Builder.entries_accept hinside]
  exact Array.empty_append

/-- Every accumulation that succeeds, in either mode and under any schedule, collects the
contributions of all elements in order. -/
theorem accumulate_spec {b : Builder α} (h : (accumulate schedule r space options).result = .ok b) :
    ∃ dim source m, Contributing r space options dim source m ∧ b = collected space dim m := by
  rw [accumulate_result] at h
  obtain ⟨⟨s, m⟩, hprepare, hb⟩ := bind_eq_ok.mp h
  obtain ⟨tss, htss, rfl⟩ := pushElements_eq_ok (inside_of_prepare hprepare) hb
  obtain ⟨dim, source, hchecks, rfl, hsource, heval⟩ := prepare_spec hprepare
  have htask : ∀ e < space.elements, space.Accepts ((space.order + 1) ^ dim.value) e ∧
      space.contributions (Kernel.ofOrder dim space.order) m ((space.order + 1) ^ dim.value) e =
        .ok (space.elementTriplets dim m e) := by
    intro e he
    obtain ⟨ts, -, hts⟩ := exists_of_mapM_eq_ok htss (List.mem_range.mpr he)
    rw [Setup.ofOrder, Space.contributions_eq hchecks heval he, map_eq_ok] at hts
    obtain ⟨dofs, hgather, -⟩ := hts
    exact ⟨(Space.gather_eq_ok.mp hgather).1, by
      rw [Space.contributions_eq hchecks heval he, hgather]; rfl⟩
  have htss' : tss = (List.range space.elements).map (space.elementTriplets dim m) := by
    rw [Setup.ofOrder, mapM_ok_of_forall fun e he => (htask e (List.mem_range.mp he)).2] at htss
    exact (Except.ok.inj htss).symm
  exact ⟨dim, source, m, ⟨hchecks, hsource, heval, fun e he => (htask e he).1⟩, by
    rw [htss', collected, Space.allTriplets, List.flatMap]⟩

theorem assembleWith_eq_ok {convert : Conversion α} {essential : List Nat} {a : Csr α} :
    (assembleWith convert schedule r space essential options).result = .ok a ↔
      ∃ b, (accumulate schedule r space options).result = .ok b ∧
        (b.finalizeWith convert essential).result = .ok a := by
  simp only [assembleWith_result, bind_eq_ok, mapError_eq_ok]

theorem mem_pattern_of_finalizeWith {convert : Conversion α} (hconvert : convert.Sums)
    {b : Builder α} {essential : List Nat} {a : Csr α}
    (h : (b.finalizeWith convert essential).result = .ok a) {i j : Nat} :
    (i, j) ∈ a.pattern ↔ ∃ t ∈ b.entries.toList, t.row = i ∧ t.col = j := by
  rw [(finalizeWith_eq_ok.mp h).2, Csr.mem_pattern, Csr.columns_clear, ← Csr.mem_pattern]
  exact (b.stores_of_sums hconvert).mem_pattern i j

theorem ordered_of_finalizeWith {convert : Conversion α} (hconvert : convert.Sums)
    {b : Builder α} {essential : List Nat} {a : Csr α}
    (h : (b.finalizeWith convert essential).result = .ok a) : a.Ordered := by
  rw [(finalizeWith_eq_ok.mp h).2]
  exact (b.stores_of_sums hconvert).ordered.clear _

/-- A conversion that agrees with the sum in order of arrival leads to the sum of the contributions
of all elements without essential rows and columns. -/
theorem Contributing.assembled (h : Contributing r space options dim source m)
    {convert : Conversion α} {essential : List Nat} {a : Csr α}
    (hconvert : ∀ b : Builder α,
      convert b.nrows b.ncols b.entries = Csr.ofTriplets b.nrows b.ncols b.entries)
    (hfinalize : ((collected space dim m).finalizeWith convert essential).result = .ok a) :
    Assembled r space essential options dim source m a := by
  have ha := (finalizeWith_eq_ok.mp hfinalize).2
  rw [hconvert, h.entries_collected] at ha
  exact ⟨h, ha⟩

theorem assemble_spec {essential : List Nat} {a : Csr α}
    (h : (assemble schedule r space essential options).result = .ok a) :
    ∃ dim source m, Assembled r space essential options dim source m a := by
  obtain ⟨b, hb, hfinalize⟩ := assembleWith_eq_ok.mp h
  obtain ⟨dim, source, m, hcontributing, rfl⟩ := accumulate_spec hb
  exact ⟨dim, source, m, hcontributing.assembled (fun _ => rfl) hfinalize⟩

end Contributing

def contributionSum [Scalar α] (space : Space) (dim : Dimension) (m : MetricArray α) : Csr α :=
  Csr.ofTriplets space.numDofs space.numDofs (space.allTriplets dim m).toArray

/-- Which degrees of freedom elimination clears. -/
def cleared (space : Space) (essential : List Nat) (i : Nat) : Bool :=
  decide (i ∈ essential ∧ i < space.numDofs)

section Matrix

variable [Scalar α] {r : Refinement α} {space : Space} {essential : List Nat}
  {options : Options α} {dim : Dimension} {source : JacobianSource α} {m : MetricArray α}
  {a : Csr α}

@[simp] theorem nrows_contributionSum (space : Space) (dim : Dimension) (m : MetricArray α) :
    (contributionSum space dim m).nrows = space.numDofs := Csr.nrows_ofTriplets _ _

@[simp] theorem ncols_contributionSum (space : Space) (dim : Dimension) (m : MetricArray α) :
    (contributionSum space dim m).ncols = space.numDofs := Csr.ncols_ofTriplets _ _

/-- A matrix is the sum of all contributions without the rows and columns that are cleared. -/
theorem Assembled.eq_clear (h : Assembled r space essential options dim source m a) :
    a = (contributionSum space dim m).clear (cleared space essential) := by
  have htable : (fun i => ((contributionSum space dim m).essentialTable essential).getD i false) =
      cleared space essential := by
    funext i
    rw [Csr.getD_essentialTable, nrows_contributionSum, ncols_contributionSum, Nat.min_self,
      cleared]
  rw [← htable]
  exact h.matrix_eq

theorem Assembled.nrows_eq (h : Assembled r space essential options dim source m a) :
    a.nrows = space.numDofs := by
  rw [h.matrix_eq, Csr.nrows_clear, Csr.nrows_ofTriplets]

theorem Assembled.ncols_eq (h : Assembled r space essential options dim source m a) :
    a.ncols = space.numDofs := by
  rw [h.matrix_eq, Csr.ncols_clear, Csr.ncols_ofTriplets]

theorem Assembled.ordered (h : Assembled r space essential options dim source m a) :
    a.Ordered := by
  rw [h.matrix_eq]
  exact (Csr.ordered_ofTriplets _ _).clear _

end Matrix

end Assembly

end LowOrderRefinement
