import Mathlib.Data.List.Sort
import LowOrderRefinement.Sparse.Csr

/-! Which entries of a matrix are stored. A contribution makes the entry that it goes to a
stored one, whatever its value, and changes no other; elimination changes values
only. A sum of contributions therefore stores the places to which something was
contributed. The columns of every row stay in increasing order, so that the pattern
of a matrix is known once the places in it are. -/

namespace LowOrderRefinement

variable {α β : Type}

theorem Row.mem_map_deposit [Add α] {col j : Nat} {value : α} {row : Row α} :
    j ∈ (Row.deposit col value row).map (·.1) ↔ j = col ∨ j ∈ row.map (·.1) := by
  induction row with
  | nil => simp [Row.deposit]
  | cons d row ih =>
    rw [Row.deposit]
    split
    · simp
    · split
      next hcol => simp [hcol]
      next => rw [List.map_cons, List.mem_cons, ih, List.map_cons, List.mem_cons, or_left_comm]

namespace Csr

def columns (m : Csr α) (i : Nat) : List Nat := (m.rows.getD i []).map (·.1)

/-- The columns of every row are in increasing order. -/
def Ordered (m : Csr α) : Prop := ∀ i, Row.Sorted (m.rows.getD i [])

theorem ext_rows {m n : Csr α} (hcols : m.ncols = n.ncols) (hrows : m.nrows = n.nrows)
    (h : ∀ i, m.rows.getD i [] = n.rows.getD i []) : m = n := by
  obtain ⟨ncols, rows⟩ := m
  obtain ⟨ncols', rows'⟩ := n
  obtain rfl : ncols = ncols' := hcols
  congr 1
  refine Array.ext hrows fun i hi hi' => ?_
  simpa [Array.getD_eq_getD_getElem?, hi, hi'] using h i

theorem Ordered.pairwise_columns {m : Csr α} (h : m.Ordered) (i : Nat) :
    (m.columns i).Pairwise (· < ·) := List.pairwise_map.mpr (h i)

/-! ### One contribution -/

@[simp] theorem nrows_empty (nrows ncols : Nat) : (empty nrows ncols : Csr α).nrows = nrows :=
  Array.size_replicate

theorem getD_rows_empty (nrows ncols i : Nat) :
    (empty nrows ncols : Csr α).rows.getD i [] = [] := by
  rw [empty, Array.getD_eq_getD_getElem?, Array.getElem?_replicate]
  split <;> rfl

theorem columns_empty (nrows ncols i : Nat) : (empty nrows ncols : Csr α).columns i = [] := by
  rw [columns, getD_rows_empty, List.map_nil]

theorem ordered_empty (nrows ncols : Nat) : (empty nrows ncols : Csr α).Ordered := by
  intro i
  rw [getD_rows_empty]
  exact List.Pairwise.nil

section Add

variable [Add α]

@[simp] theorem nrows_add (m : Csr α) (t : Triplet α) : (m.add t).nrows = m.nrows :=
  Array.size_modify

@[simp] theorem ncols_add (m : Csr α) (t : Triplet α) : (m.add t).ncols = m.ncols := rfl

theorem getD_rows_add (m : Csr α) (t : Triplet α) (i : Nat) :
    (m.add t).rows.getD i [] =
      if t.row = i ∧ i < m.nrows then Row.deposit t.col t.value (m.rows.getD i [])
      else m.rows.getD i [] := by
  simp only [add, Array.getD_eq_getD_getElem?, Array.getElem?_modify, nrows]
  by_cases hrow : t.row = i
  · by_cases hi : i < m.rows.size <;> simp [hrow, hi]
  · simp [hrow]

theorem Ordered.add {m : Csr α} (h : m.Ordered) (t : Triplet α) : (m.add t).Ordered := by
  intro i
  rw [getD_rows_add]
  split
  · exact (h i).deposit
  · exact h i

/-- A contribution is stored where it goes, also when it is zero. -/
theorem mem_columns_add {m : Csr α} {t : Triplet α} (ht : t.row < m.nrows) {i j : Nat} :
    j ∈ (m.add t).columns i ↔ (t.row = i ∧ t.col = j) ∨ j ∈ m.columns i := by
  rw [columns, getD_rows_add]
  by_cases hrow : t.row = i
  · rw [if_pos ⟨hrow, hrow ▸ ht⟩, Row.mem_map_deposit, eq_comm (a := j)]
    simp only [hrow, true_and, columns]
  · rw [if_neg fun h => hrow h.1]
    simp only [hrow, false_and, false_or, columns]

/-! ### All contributions -/

variable {ts : List (Triplet α)} {m : Csr α}

@[simp] theorem nrows_foldl_add : (ts.foldl add m).nrows = m.nrows := by
  induction ts generalizing m with
  | nil => rfl
  | cons t ts ih => rw [List.foldl_cons, ih, nrows_add]

@[simp] theorem ncols_foldl_add : (ts.foldl add m).ncols = m.ncols := by
  induction ts generalizing m with
  | nil => rfl
  | cons t ts ih => rw [List.foldl_cons, ih, ncols_add]

theorem Ordered.foldl_add (h : m.Ordered) : (ts.foldl Csr.add m).Ordered := by
  induction ts generalizing m with
  | nil => exact h
  | cons t ts ih => exact ih (h.add t)

theorem mem_columns_foldl_add (hts : ∀ t ∈ ts, t.row < m.nrows) {i j : Nat} :
    j ∈ (ts.foldl add m).columns i ↔ (∃ t ∈ ts, t.row = i ∧ t.col = j) ∨ j ∈ m.columns i := by
  induction ts generalizing m with
  | nil => simp
  | cons t ts ih =>
    obtain ⟨ht, hts⟩ := List.forall_mem_cons.mp hts
    rw [List.foldl_cons, ih (fun u hu => by rw [nrows_add]; exact hts u hu), mem_columns_add ht,
      List.exists_mem_cons_iff, or_left_comm, or_assoc]

theorem nrows_ofTriplets (nrows ncols : Nat) :
    (ofTriplets nrows ncols ts.toArray).nrows = nrows := by
  rw [ofTriplets, List.foldl_toArray, nrows_foldl_add, nrows_empty]

theorem ncols_ofTriplets (nrows ncols : Nat) :
    (ofTriplets nrows ncols ts.toArray).ncols = ncols := by
  rw [ofTriplets, List.foldl_toArray, ncols_foldl_add]
  rfl

theorem ordered_ofTriplets (nrows ncols : Nat) :
    (ofTriplets nrows ncols ts.toArray).Ordered := by
  rw [ofTriplets, List.foldl_toArray]
  exact (ordered_empty nrows ncols).foldl_add

theorem mem_columns_ofTriplets {nrows ncols : Nat} (hts : ∀ t ∈ ts, t.row < nrows) {i j : Nat} :
    j ∈ (ofTriplets nrows ncols ts.toArray).columns i ↔ ∃ t ∈ ts, t.row = i ∧ t.col = j := by
  rw [ofTriplets, List.foldl_toArray, mem_columns_foldl_add (by simpa using hts), columns_empty]
  simp

end Add

/-! ### Elimination -/

theorem getD_rows_mapEntries (m : Csr α) (f : Nat → Nat → α → β) (i : Nat) :
    (m.mapEntries f).rows.getD i [] = (m.rows.getD i []).map fun (j, v) => (j, f i j v) := by
  rw [mapEntries, Array.getD_eq_getD_getElem?, Array.getElem?_mapIdx, Array.getD_eq_getD_getElem?]
  cases m.rows[i]? <;> rfl

@[simp] theorem columns_mapEntries (m : Csr α) (f : Nat → Nat → α → β) (i : Nat) :
    (m.mapEntries f).columns i = m.columns i := by
  rw [columns, getD_rows_mapEntries, List.map_map]
  rfl

theorem Ordered.mapEntries {m : Csr α} (h : m.Ordered) (f : Nat → Nat → α → β) :
    (m.mapEntries f).Ordered := by
  intro i
  rw [getD_rows_mapEntries]
  exact List.pairwise_map.mpr (h i)

/-- The table marks the essential degrees of freedom that exist. -/
theorem getD_essentialTable (m : Csr α) (essential : List Nat) (i : Nat) :
    (m.essentialTable essential).getD i false =
      decide (i ∈ essential ∧ i < min m.nrows m.ncols) := by
  have hfold (table : Array Bool) :
      (essential.foldl (fun table dof => table.setIfInBounds dof true) table).getD i false =
        decide (table.getD i false = true ∨ i ∈ essential ∧ i < table.size) := by
    induction essential generalizing table with
    | nil => simp
    | cons dof essential ih =>
      rw [List.foldl_cons, ih, Array.size_setIfInBounds, Array.getD_eq_getD_getElem?,
        Array.getElem?_setIfInBounds, Array.getD_eq_getD_getElem?]
      by_cases hdof : dof = i
      · by_cases hi : i < table.size <;> simp [hdof, hi]
      · simp [hdof, Ne.symm hdof]
  rw [essentialTable, hfold, Array.getD_eq_getD_getElem?, Array.getElem?_replicate,
    Array.size_replicate]
  congr 1
  split <;> simp

section Clear

variable [Zero α]

@[simp] theorem nrows_clear (m : Csr α) (isEssential : Nat → Bool) :
    (m.clear isEssential).nrows = m.nrows :=
  Array.size_mapIdx

@[simp] theorem ncols_clear (m : Csr α) (isEssential : Nat → Bool) :
    (m.clear isEssential).ncols = m.ncols := rfl

@[simp] theorem columns_clear (m : Csr α) (isEssential : Nat → Bool) (i : Nat) :
    (m.clear isEssential).columns i = m.columns i := m.columns_mapEntries _ i

theorem Ordered.clear {m : Csr α} (h : m.Ordered) (isEssential : Nat → Bool) :
    (m.clear isEssential).Ordered := h.mapEntries _

end Clear

/-! ### The pattern -/

theorem zipIdx_rows (m : Csr α) :
    m.rows.toList.zipIdx = (List.range m.nrows).map fun i => (m.rows.getD i [], i) := by
  refine List.ext_getElem (by simp [nrows]) fun i hi _ => ?_
  rw [List.length_zipIdx, Array.length_toList] at hi
  simp [Array.getD_eq_getD_getElem?, hi]

theorem triplets_eq (m : Csr α) :
    m.triplets = (List.range m.nrows).flatMap fun i =>
      (m.rows.getD i []).map fun (j, v) => ⟨i, j, v⟩ := by
  rw [triplets, zipIdx_rows, List.flatMap_map]

theorem pattern_eq (m : Csr α) :
    m.pattern = (List.range m.nrows).flatMap fun i => (m.columns i).map fun j => (i, j) := by
  rw [pattern, triplets_eq, List.map_flatMap]
  simp only [columns, List.map_map]
  rfl

/-- The columns of an ordered row are determined by which of them are stored. -/
theorem Ordered.columns_eq_filter {m : Csr α} (h : m.Ordered) {i ncols : Nat} {p : Nat → Bool}
    (hp : ∀ j, j ∈ m.columns i ↔ j < ncols ∧ p j) : m.columns i = (List.range ncols).filter p :=
  (h.pairwise_columns i).eq_of_mem_iff (List.pairwise_lt_range.filter p) fun j => by
    rw [hp, List.mem_filter, List.mem_range]

end Csr

end LowOrderRefinement
