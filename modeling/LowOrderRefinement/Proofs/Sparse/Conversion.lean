import Mathlib.Algebra.Order.Ring.Abs
import Mathlib.Data.Finset.Basic
import LowOrderRefinement.Proofs.Sparse.StoredValues
import LowOrderRefinement.Proofs.ExactField
import LowOrderRefinement.Sparse.Builder

/-! From contributions to rows. Of a conversion it is known that it stores the places of the
contributions, with rows in order, and that it sums what goes to one place. This determines
the pattern of the matrix, and in exact arithmetic the matrix. Where addition is not
associative, the order of the sums matters as well. A conversion that adds the values of
each place in the order of their arrival is determined in any arithmetic. -/

namespace LowOrderRefinement

variable {α : Type}

/-! ### Ordered rows and their entries -/

theorem Row.Sorted.eq_filterMap {row : Row α} (h : Row.Sorted row) :
    (row.map (·.1)).filterMap (fun c => (Row.find? c row).map fun v => (c, v)) = row := by
  induction row with
  | nil => rfl
  | cons e row ih =>
    obtain ⟨hlt, hrow⟩ := List.pairwise_cons.mp h
    have htail : ∀ c ∈ row.map (·.1), (Row.find? c (e :: row)).map (fun v => (c, v)) =
        (Row.find? c row).map fun v => (c, v) := by
      intro c hc
      obtain ⟨d, hd, rfl⟩ := List.mem_map.mp hc
      rw [Row.find?, if_neg (Nat.ne_of_gt (hlt d hd))]
    have hhead : (Row.find? e.1 (e :: row)).map (fun v => (e.1, v)) = some e := by
      rw [Row.find?, if_pos rfl]
      rfl
    rw [List.map_cons, List.filterMap_cons, hhead]
    exact congrArg (e :: ·) ((List.filterMap_congr htail).trans (ih hrow))

namespace Csr

/-- The stored entries and the shape determine a matrix with rows in order. -/
theorem Ordered.ext {m n : Csr α} (hm : m.Ordered) (hn : n.Ordered) (hcols : m.ncols = n.ncols)
    (hrows : m.nrows = n.nrows) (h : ∀ i j, m.entry? i j = n.entry? i j) : m = n := by
  apply ext_rows hcols hrows
  intro i
  have hcolumns : m.columns i = n.columns i := by
    apply (hm.pairwise_columns i).eq_of_mem_iff (hn.pairwise_columns i)
    intro j
    rw [← isSome_entry?, ← isSome_entry?, h]
  rw [← (hm i).eq_filterMap, ← (hn i).eq_filterMap]
  change (m.columns i).filterMap _ = (n.columns i).filterMap _
  rw [hcolumns]
  apply List.filterMap_congr
  intro j _
  exact congrArg _ (h i j)

theorem entry?_eq_none {m : Csr α} {i j : Nat} (h : (i, j) ∉ m.pattern) :
    m.entry? i j = none := by
  rw [mem_pattern, ← isSome_entry?] at h
  simpa using h

/-! ### Sums of contributions -/

/-- A matrix of a given shape with rows in order, which stores the places of contributions. -/
structure Stores (nrows ncols : Nat) (ts : List (Triplet α)) (a : Csr α) : Prop where
  nrows_eq : a.nrows = nrows
  ncols_eq : a.ncols = ncols
  ascending : ∀ i, (a.columns i).Pairwise (· < ·)
  mem_pattern : ∀ i j, (i, j) ∈ a.pattern ↔ ∃ t ∈ ts, t.row = i ∧ t.col = j

/-- A matrix that stores the places of contributions, with what is contributed to each of them
added up from left to right in some order. -/
structure Sums [Scalar α] (nrows ncols : Nat) (ts : List (Triplet α)) (a : Csr α) : Prop
    extends Stores nrows ncols ts a where
  entry : ∀ i j, (i, j) ∈ a.pattern →
    ∃ vs, vs.Perm (contributed ts i j) ∧ a.entry? i j = some (Scalar.sumLeft vs)

/-- A matrix that stores the places of contributions. It holds the sum in the order of arrival in
each of them, and zero where the row or the column is eliminated beside the diagonal. -/
structure Totals [Scalar α] (nrows ncols : Nat) (ts : List (Triplet α)) (E : Finset Nat)
    (a : Csr α) : Prop extends Stores nrows ncols ts a where
  entry : ∀ i j, (i, j) ∈ a.pattern → a.entry? i j =
    some (if i ≠ j ∧ (i ∈ E ∨ j ∈ E) then 0 else Scalar.sumLeft (contributed ts i j))

section Places

variable {nrows ncols : Nat} {ts : List (Triplet α)} {a b : Csr α}

theorem Stores.ordered (h : Stores nrows ncols ts a) : a.Ordered :=
  fun i => List.pairwise_map.mp (h.ascending i)

/-- Matrices that store the same places are equal when they hold the same in each of them. -/
theorem Stores.ext (ha : Stores nrows ncols ts a) (hb : Stores nrows ncols ts b)
    (h : ∀ i j, (i, j) ∈ a.pattern → (i, j) ∈ b.pattern → a.entry? i j = b.entry? i j) :
    a = b := by
  apply Ordered.ext ha.ordered hb.ordered (ha.ncols_eq.trans hb.ncols_eq.symm)
    (ha.nrows_eq.trans hb.nrows_eq.symm)
  intro i j
  by_cases hj : (i, j) ∈ a.pattern
  · exact h i j hj ((hb.mem_pattern i j).mpr ((ha.mem_pattern i j).mp hj))
  · rw [entry?_eq_none hj,
      entry?_eq_none fun h => hj ((ha.mem_pattern i j).mpr ((hb.mem_pattern i j).mp h))]

variable [Scalar α] {E : Finset Nat}

/-- What is summed, and in which order, determines the matrix. -/
theorem Totals.unique (ha : Totals nrows ncols ts E a) (hb : Totals nrows ncols ts E b) :
    a = b :=
  ha.toStores.ext hb.toStores fun i j hja hjb => by rw [ha.entry i j hja, hb.entry i j hjb]

theorem Totals.sums (h : Totals nrows ncols ts ∅ a) : Sums nrows ncols ts a where
  toStores := h.toStores
  entry i j hj := ⟨contributed ts i j, .refl _, by rw [h.entry i j hj, if_neg (by simp)]⟩

/-- A matrix of sums stays one when the contributions are listed in another order. -/
theorem Sums.perm {us : List (Triplet α)} (h : Sums nrows ncols ts a) (hts : ts.Perm us) :
    Sums nrows ncols us a where
  nrows_eq := h.nrows_eq
  ncols_eq := h.ncols_eq
  ascending := h.ascending
  mem_pattern i j := by simp only [h.mem_pattern, hts.mem_iff]
  entry i j hj := by
    obtain ⟨vs, hvs, hentry⟩ := h.entry i j hj
    exact ⟨vs, hvs.trans ((hts.filter _).map _), hentry⟩

theorem contribute_run (v : α) (vs : List α) :
    (v :: vs).foldl contribute none = some (Scalar.sumLeft (v :: vs)) := by
  have hfold (w : α) : vs.foldl contribute (some w) = some (vs.foldl (· + ·) w) := by
    induction vs generalizing w with
    | nil => rfl
    | cons u vs ih => exact ih (w + u)
  exact hfold v

/-- Contributions that are added one after the other are summed in the order of their arrival. -/
theorem totals_ofTriplets (hts : ∀ t ∈ ts, t.row < nrows) :
    Totals nrows ncols ts ∅ (ofTriplets nrows ncols ts.toArray) where
  nrows_eq := nrows_ofTriplets nrows ncols
  ncols_eq := ncols_ofTriplets nrows ncols
  ascending := (ordered_ofTriplets nrows ncols).pairwise_columns
  mem_pattern i j := Csr.mem_pattern.trans (mem_columns_ofTriplets hts)
  entry i j hj := by
    obtain ⟨t, ht, hrow, hcol⟩ := (mem_columns_ofTriplets hts).mp (mem_pattern.mp hj)
    have hmem : t.value ∈ contributed ts i j :=
      List.mem_map_of_mem (List.mem_filter.mpr ⟨ht, decide_eq_true ⟨hrow, hcol⟩⟩)
    rw [entry?_ofTriplets hts, if_neg (by simp)]
    cases hvs : contributed ts i j with
    | nil => simp [hvs] at hmem
    | cons v vs => exact contribute_run v vs

end Places

/-- In exact arithmetic the order of the sums does not matter. -/
theorem Sums.unique {K : Type} [ExactField K] {nrows ncols : Nat} {ts : List (Triplet K)}
    {a b : Csr K} (ha : Sums nrows ncols ts a) (hb : Sums nrows ncols ts b) : a = b := by
  refine ha.toStores.ext hb.toStores fun i j hja hjb => ?_
  obtain ⟨vs, hvs, hentry⟩ := ha.entry i j hja
  obtain ⟨ws, hws, hentry'⟩ := hb.entry i j hjb
  rw [hentry, hentry', Scalar.sumLeft_eq, Scalar.sumLeft_eq, (hvs.trans hws.symm).sum_eq]

end Csr

/-! ### Conversions -/

namespace Conversion

/-- The conversion sums what is contributed to one place, in an order of its own. -/
def Sums [Scalar α] (convert : Conversion α) : Prop :=
  ∀ nrows ncols (ts : List (Triplet α)), (∀ t ∈ ts, t.row < nrows ∧ t.col < ncols) →
    Csr.Sums nrows ncols ts (convert nrows ncols ts.toArray)

/-- The conversion sums what is contributed to one place in the order of arrival. -/
def InOrder [Scalar α] (convert : Conversion α) : Prop :=
  ∀ nrows ncols (ts : List (Triplet α)), (∀ t ∈ ts, t.row < nrows ∧ t.col < ncols) →
    Csr.Totals nrows ncols ts ∅ (convert nrows ncols ts.toArray)

theorem InOrder.sums [Scalar α] {convert : Conversion α} (h : convert.InOrder) : convert.Sums :=
  fun nrows ncols ts hts => (h nrows ncols ts hts).sums

theorem inOrder_ofTriplets [Scalar α] : InOrder (Csr.ofTriplets : Conversion α) :=
  fun _ _ _ hts => Csr.totals_ofTriplets fun t ht => (hts t ht).1

/-- The conversion that adds up what is contributed to one place from the last value to the
first. -/
def lastFirst [Add α] : Conversion α := fun nrows ncols ts => Csr.ofTriplets nrows ncols ts.reverse

theorem sums_lastFirst [Scalar α] : (lastFirst : Conversion α).Sums := by
  intro nrows ncols ts hts
  have hreverse : ∀ t ∈ ts.reverse, t.row < nrows := fun t ht => (hts t (List.mem_reverse.mp ht)).1
  rw [lastFirst, List.reverse_toArray]
  exact (Csr.totals_ofTriplets hreverse).sums.perm ts.reverse_perm

end Conversion

namespace Builder

theorem inside_toList (b : Builder α) :
    ∀ t ∈ b.entries.toList, t.row < b.nrows ∧ t.col < b.ncols :=
  fun t ht => b.inside t (Array.mem_toList_iff.mp ht)

variable [Scalar α] {convert : Conversion α} (b : Builder α)

theorem stores_of_sums (h : convert.Sums) :
    Csr.Stores b.nrows b.ncols b.entries.toList (convert b.nrows b.ncols b.entries) :=
  (h _ _ _ b.inside_toList).toStores

theorem totals_of_inOrder (h : convert.InOrder) :
    Csr.Totals b.nrows b.ncols b.entries.toList ∅ (convert b.nrows b.ncols b.entries) :=
  h _ _ _ b.inside_toList

/-- Conversions that sum in order agree in any arithmetic. -/
theorem convert_of_inOrder (h : convert.InOrder) :
    convert b.nrows b.ncols b.entries = Csr.ofTriplets b.nrows b.ncols b.entries :=
  (b.totals_of_inOrder h).unique (b.totals_of_inOrder Conversion.inOrder_ofTriplets)

end Builder

/-- Conversions that sum agree in exact arithmetic. -/
theorem Builder.convert_of_sums {K : Type} [ExactField K] {convert : Conversion K}
    (b : Builder K) (h : convert.Sums) :
    convert b.nrows b.ncols b.entries = Csr.ofTriplets b.nrows b.ncols b.entries :=
  (h _ _ _ b.inside_toList).unique
    (Conversion.inOrder_ofTriplets.sums _ _ _ b.inside_toList)

end LowOrderRefinement
