import LowOrderRefinement.Proofs.Assembly.Assembled
import LowOrderRefinement.Proofs.Sparse.StoredValues
import LowOrderRefinement.Proofs.Execution.Naturality

/-! Homogeneity of everything that follows the metric. In exact arithmetic the kernels are
linear in the metric terms, and contributions are only ever added and set to zero;
so when all metric terms are multiplied by a number, then so are the contributions of
every element and the entries of the matrix. What is stored where, and what is
refused, does not depend on the values at all. -/

namespace LowOrderRefinement

variable {α β : Type}

/-! ### Values in place -/

/-- The same contribution with its value replaced. -/
def Triplet.map (f : α → β) (t : Triplet α) : Triplet β := ⟨t.row, t.col, f t.value⟩

def MetricArray.map (f : α → β) (m : MetricArray α) : MetricArray β :=
  { m with
    entries := m.entries.map f
    size_entries := by rw [Array.size_map, m.size_entries] }

def Builder.map (f : α → β) (b : Builder α) : Builder β :=
  { nrows := b.nrows
    ncols := b.ncols
    entries := b.entries.map (Triplet.map f)
    inside := by
      intro t ht
      obtain ⟨u, hu, rfl⟩ := Array.mem_map.mp ht
      exact b.inside u hu }

def Csr.map (f : α → β) (m : Csr α) : Csr β := m.mapEntries fun _ _ v => f v

theorem MetricArray.ofEntries_map (f : α → β) (components points subcells elements : Nat)
    (entries : Array α) :
    ofEntries components points subcells elements (entries.map f) =
      (ofEntries components points subcells elements entries).map (MetricArray.map f) := by
  simp only [ofEntries, Array.size_map]
  split <;> rfl

theorem MetricArray.element_map (f : α → β) (m : MetricArray α) (e : Nat) :
    (m.map f).element e = (m.element e).map (Array.map f) := by
  have hslice (start stop : Nat) :
      slice (m.entries.map f) start stop = (slice m.entries start stop).map (Array.map f) := by
    simp only [slice, Array.size_map, ← Array.map_extract]
    split <;> rfl
  have hstride : (m.map f).elementStride = m.elementStride := rfl
  change _ = Array.map f <$> m.element e
  simp only [element, map_bind, hstride]
  exact bind_congr fun start => bind_congr fun next => bind_congr fun stop => hslice start stop

namespace Builder

theorem map_empty (f : α → β) (nrows ncols : Nat) :
    (empty nrows ncols).map f = empty nrows ncols := ext_entries rfl rfl Array.map_empty

theorem pushAll_map (f : α → β) (b : Builder α) (ts : List (Triplet α)) :
    (b.map f).pushAll (ts.map (Triplet.map f)) = (b.pushAll ts).map (Builder.map f) := by
  have hadmits : (b.map f).admits ∘ Triplet.map f = b.admits := rfl
  have haccept : (b.map f).accept (ts.map (Triplet.map f)) = (b.accept ts).map f := by
    refine ext_entries rfl rfl ?_
    simp only [accept, List.takeWhile_map, hadmits, ← List.map_toArray]
    exact Array.map_append.symm
  change _ = Builder.map f <$> _
  simp only [pushAll, admitsAll, List.all_map, hadmits, haccept, map_bind, map_pure]

end Builder

namespace Csr

theorem nrows_map (f : α → β) (m : Csr α) : (m.map f).nrows = m.nrows := Array.size_mapIdx

@[simp] theorem columns_map (f : α → β) (m : Csr α) (i : Nat) :
    (m.map f).columns i = m.columns i := m.columns_mapEntries _ i

theorem pattern_map (f : α → β) (m : Csr α) : (m.map f).pattern = m.pattern := by
  simp only [pattern_eq, nrows_map, columns_map]

theorem getD_rows_map (f : α → β) (m : Csr α) (i : Nat) :
    (m.map f).rows.getD i [] = (m.rows.getD i []).map (Prod.map id f) :=
  m.getD_rows_mapEntries _ i

theorem map_empty (f : α → β) (nrows ncols : Nat) :
    (empty nrows ncols : Csr α).map f = empty nrows ncols := by
  refine ext_rows rfl ?_ fun i => ?_
  · rw [nrows_map, nrows_empty, nrows_empty]
  · rw [getD_rows_map, getD_rows_empty, getD_rows_empty, List.map_nil]

end Csr

/-! ### Sums and elimination -/

section Additive

variable [Add α] [Add β] {f : α → β} (hf : ∀ x y, f (x + y) = f x + f y)

include hf

theorem Row.deposit_map (col : Nat) (value : α) (row : Row α) :
    deposit col (f value) (row.map (Prod.map id f)) =
      (deposit col value row).map (Prod.map id f) := by
  induction row with
  | nil => rfl
  | cons d row ih =>
    rw [List.map_cons, deposit]
    change (if col < d.1 then _ else if col = d.1 then _ else _) = _
    rw [deposit]
    split
    · rfl
    · split
      · rw [List.map_cons]
        simp only [Prod.map, id_eq, hf]
      · rw [ih, List.map_cons]

theorem Csr.add_map (m : Csr α) (t : Triplet α) :
    (m.map f).add (t.map f) = (m.add t).map f := by
  refine ext_rows rfl ?_ fun i => ?_
  · rw [nrows_add, nrows_map, nrows_map, nrows_add]
  · rw [getD_rows_add, getD_rows_map, getD_rows_map, getD_rows_add, nrows_map]
    change (if t.row = i ∧ i < m.nrows then _ else _) = _
    split
    · exact Row.deposit_map hf t.col t.value _
    · rfl

theorem Csr.ofTriplets_map (nrows ncols : Nat) (ts : Array (Triplet α)) :
    ofTriplets nrows ncols (ts.map (Triplet.map f)) = (ofTriplets nrows ncols ts).map f := by
  rw [ofTriplets, ofTriplets, Array.foldl_map, ← map_empty f]
  exact Array.foldl_hom (Csr.map f) fun m t => m.add_map hf t

end Additive

theorem Csr.clear_map [Zero α] [Zero β] {f : α → β} (hf : f 0 = 0) (m : Csr α)
    (isEssential : Nat → Bool) : (m.map f).clear isEssential = (m.clear isEssential).map f := by
  refine ext_rows rfl ?_ fun i => ?_
  · rw [nrows_clear, nrows_map, nrows_map, nrows_clear]
  · rw [clear, getD_rows_mapEntries, getD_rows_map, getD_rows_map, clear, getD_rows_mapEntries,
      List.map_map, List.map_map]
    refine List.map_congr_left fun e _ => ?_
    simp only [Function.comp_apply, Prod.map, id_eq, apply_ite f, hf]

theorem Assembly.finalize_map [Scalar α] [Scalar β] {f : α → β}
    (hadd : ∀ x y, f (x + y) = f x + f y) (hzero : f 0 = 0) (b : Builder α)
    (essential : List Nat) :
    ((b.map f).finalize essential).result = (b.finalize essential).result.map (Csr.map f) := by
  have htable (m : Csr α) : (m.map f).essentialTable essential = m.essentialTable essential := by
    simp only [Csr.essentialTable, Csr.nrows_map]
    rfl
  have hsum : Csr.ofTriplets (b.map f).nrows (b.map f).ncols (b.map f).entries =
      (Csr.ofTriplets b.nrows b.ncols b.entries).map f := Csr.ofTriplets_map hadd _ _ _
  rw [finalize_result, finalize_result, hsum]
  simp only [htable, Csr.clear_map hzero]
  change _ = Csr.map f <$> _
  simp only [map_bind, map_pure]
  rfl

/-! ### Kernels -/

section Kernels

variable {K : Type} [ExactField K] (c : K)

def Sym2.map (f : α → β) (m : Sym2 α) : Sym2 β := ⟨f m.xx, f m.xy, f m.yy⟩

def Sym3.map (f : α → β) (m : Sym3 α) : Sym3 β :=
  ⟨f m.xx, f m.xy, f m.xz, f m.yy, f m.yz, f m.zz⟩

theorem Sym2.form_map (m : Sym2 K) (u v : Vec2 K) : (m.map (c * ·)).form u v = c * m.form u v := by
  simp only [form, map]
  ring

theorem Sym3.form_map (m : Sym3 K) (u v : Vec3 K) : (m.map (c * ·)).form u v = c * m.form u v := by
  simp only [form, map]
  ring

namespace Stencil

theorem Planar.coupling_map (order : Nat) (metric : Nat → Nat → Sym2 K) (i j : Planar.Node) :
    Planar.coupling order (fun cell point => (metric cell point).map (c * ·)) i j =
      c * Planar.coupling order metric i j := by
  simp only [Planar.coupling_eq, Sym2.form_map, ← Finset.mul_sum, List.sum_map_mul_left]

theorem Planar.triplets_map (order : Nat) (metric : Nat → Nat → Sym2 K) :
    Planar.triplets order (fun cell point => (metric cell point).map (c * ·)) =
      (Planar.triplets order metric).map (Triplet.map (c * ·)) := by
  simp only [Planar.triplets, Planar.coupling_map, List.map_flatMap, List.map_map]
  rfl

theorem Solid.localMatrix_map (metric : Nat → Sym3 K) :
    Solid.localMatrix ((List.range 8).map fun q => (metric q).map (c * ·)) Solid.gradients =
      (Solid.localMatrix ((List.range 8).map metric) Solid.gradients).map (c * ·) := by
  rw [Solid.localMatrix_eq fun q => (metric q).map (c * ·), Solid.localMatrix_eq, List.map_map]
  refine List.map_congr_left fun p _ => ?_
  simp only [Sym3.form_map, List.sum_map_mul_left, Function.comp_apply]

theorem Solid.triplets_map (order : Nat) (metric : Nat → Nat → Sym3 K) :
    Solid.triplets order (fun cell point => (metric cell point).map (c * ·)) =
      (Solid.triplets order metric).map (Triplet.map (c * ·)) := by
  simp only [Solid.triplets, Solid.localMatrix_map, List.zip_map_right, List.map_flatMap,
    List.map_map]
  rfl

end Stencil

namespace Kernel

theorem getD_map_mul (terms : Array K) (i : Nat) :
    (terms.map (c * ·)).getD i 0 = c * terms.getD i 0 := by
  rw [Array.getD_eq_getD_getElem?, Array.getD_eq_getD_getElem?, Array.getElem?_map]
  cases terms[i]? with
  | none => exact (mul_zero c).symm
  | some x => rfl

theorem nodeTriplets_map (dim : Dimension) (order : Nat) (terms : Array K) :
    nodeTriplets dim order (terms.map (c * ·)) =
      (nodeTriplets dim order terms).map (Triplet.map (c * ·)) := by
  cases dim with
  | two =>
    have hmetric : planarMetric (terms.map (c * ·)) =
        fun cell point => (planarMetric terms cell point).map (c * ·) := by
      funext cell point
      simp only [planarMetric, getD_map_mul, Sym2.map]
    simp only [nodeTriplets, hmetric, Stencil.Planar.triplets_map]
  | three =>
    have hmetric : solidMetric (terms.map (c * ·)) =
        fun cell point => (solidMetric terms cell point).map (c * ·) := by
      funext cell point
      simp only [solidMetric, getD_map_mul, Sym3.map]
    simp only [nodeTriplets, hmetric, Stencil.Solid.triplets_map]

theorem ofOrder_map (dim : Dimension) (order : Nat) (terms : Array K) (dofs ordering : Array Nat) :
    ofOrder dim order (terms.map (c * ·)) dofs ordering =
      (ofOrder dim order terms dofs ordering).map (List.map (Triplet.map (c * ·))) := by
  have htriplets (f : Nat → Nat) :
      (nodeTriplets dim order (terms.map (c * ·))).map (·.relabel f) =
        ((nodeTriplets dim order terms).map (·.relabel f)).map (Triplet.map (c * ·)) := by
    rw [nodeTriplets_map, List.map_map, List.map_map]
    rfl
  change _ = List.map (Triplet.map (c * ·)) <$> _
  simp only [ofOrder, Array.size_map, htriplets, map_bind, map_pure]

end Kernel

end Kernels

/-! ### Elements -/

/-- An element contributes in proportion to its metric terms. -/
theorem Space.contributions_map {K : Type} [ExactField K] (space : Space) (g : K → K) (c : K)
    (dim : Dimension) (order nodes : Nat) (m : MetricArray K) (e : Nat) :
    (space.contributions (Kernel.ofOrder dim order) m nodes e).transform g
        (List.map (Triplet.map (c * ·))) =
      space.contributions (Kernel.ofOrder dim order) (m.map (c * ·)) nodes e := by
  refine Outcome.transform_bind (Outcome.transform_of_reports (space.kind_gather nodes e))
    fun dofs _ => ?_
  have hterms : (liftM (m.element e) : Outcome K (Array K)).transform g (Array.map (c * ·)) =
      liftM ((m.map (c * ·)).element e) := by
    rw [Outcome.transform_lift, MetricArray.element_map]
  refine Outcome.transform_bind hterms fun terms _ => ?_
  rw [Outcome.transform_lift, id_eq, Kernel.ofOrder_map]

namespace Assembly

theorem pushElements_map (schedule : Schedule) (parallel : Bool) {g f : α → α}
    {task task' : Nat → Outcome α (List (Triplet α))}
    (h : ∀ e, (task e).transform g (List.map (Triplet.map f)) = task' e) (elements : Nat)
    (b : Builder α) :
    (pushElements schedule parallel task elements b).transform g (Builder.map f) =
      pushElements schedule parallel task' elements (b.map f) := by
  have hpush (b : Builder α) (ts : List (Triplet α)) :
      (liftM (b.pushAll ts) : Outcome α (Builder α)).transform g (Builder.map f) =
        liftM ((b.map f).pushAll (ts.map (Triplet.map f))) := by
    rw [Outcome.transform_lift, Builder.pushAll_map]
  cases parallel with
  | false =>
    refine Outcome.transform_foldlM (fun e _ b => ?_) b
    exact Outcome.transform_bind (h e) fun ts _ => hpush b ts
  | true =>
    refine Outcome.transform_foldlM (fun batch _ b => ?_) b
    refine Outcome.transform_bind (schedule.transform_firstFailure fun e _ => h e) fun done _ => ?_
    rw [List.foldlM_map]
    exact Outcome.transform_foldlM (fun ts _ b => hpush b ts) b

end Assembly

end LowOrderRefinement
