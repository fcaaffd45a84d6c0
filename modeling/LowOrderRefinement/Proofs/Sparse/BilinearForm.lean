import Mathlib.Algebra.BigOperators.Ring.Finset
import Mathlib.Algebra.BigOperators.Group.List.Basic
import LowOrderRefinement.Proofs.Sparse.StoredValues
import LowOrderRefinement.Proofs.ExactField

/-! The entries of a matrix in exact arithmetic. An entry that is not stored is zero.
The entry in a row and column of a sum of contributions is the sum of the values
that were contributed to it, so that the bilinear form of the matrix is a sum over
contributions. Elimination replaces entries by zero. -/

namespace LowOrderRefinement

open Finset

variable {K : Type} [ExactField K]

namespace Csr

/-- The entry in a row and column, which is zero when it is not stored. -/
def value (m : Csr K) (i j : Nat) : K := (m.entry? i j).getD 0

/-- The bilinear form of a matrix, at vectors given by their entries. -/
def form (m : Csr K) (x y : Nat → K) : K :=
  ∑ i ∈ range m.nrows, ∑ j ∈ range m.ncols, x i * m.value i j * y j

/-! ### One contribution -/

theorem value_empty (nrows ncols i j : Nat) : (empty nrows ncols : Csr K).value i j = 0 := by
  rw [value, entry?, getD_rows_empty]
  rfl

theorem value_add {m : Csr K} (h : m.Ordered) {t : Triplet K} (ht : t.row < m.nrows) (i j : Nat) :
    (m.add t).value i j = m.value i j + if t.row = i ∧ t.col = j then t.value else 0 := by
  rw [value, entry?, getD_rows_add]
  by_cases hrow : t.row = i
  · rw [if_pos ⟨hrow, hrow ▸ ht⟩]
    by_cases hcol : t.col = j
    · rw [← hcol, Row.find?_deposit_self (h i), if_pos ⟨hrow, rfl⟩, value, entry?]
      cases Row.find? t.col (m.rows.getD i []) <;> simp
    · rw [Row.find?_deposit_of_ne (Ne.symm hcol), if_neg (fun hh => hcol hh.2), add_zero]
      rfl
  · rw [if_neg (fun hh => hrow hh.1), if_neg (fun hh => hrow hh.1), add_zero]
    rfl

/-! ### All contributions -/

section Contributions

variable {ts : List (Triplet K)} {m : Csr K}

theorem value_foldl_add (h : m.Ordered) (hts : ∀ t ∈ ts, t.row < m.nrows) (i j : Nat) :
    (ts.foldl add m).value i j =
      m.value i j + (ts.map fun t => if t.row = i ∧ t.col = j then t.value else 0).sum := by
  induction ts generalizing m with
  | nil => simp
  | cons t ts ih =>
    obtain ⟨ht, hts⟩ := List.forall_mem_cons.mp hts
    rw [List.foldl_cons, ih (h.add t) (fun u hu => by rw [nrows_add]; exact hts u hu),
      value_add h ht, List.map_cons, List.sum_cons, add_assoc]

end Contributions

section OfTriplets

variable {ts : List (Triplet K)} (nrows ncols : Nat)

theorem value_ofTriplets (hts : ∀ t ∈ ts, t.row < nrows) (i j : Nat) :
    (ofTriplets nrows ncols ts.toArray).value i j =
      (ts.map fun t => if t.row = i ∧ t.col = j then t.value else 0).sum := by
  rw [ofTriplets, List.foldl_toArray,
    value_foldl_add (ordered_empty nrows ncols) (by simpa using hts), value_empty, zero_add]

/-- Summing a weight over the entries to which contributions go is summing it over the
contributions. -/
theorem sum_weight_contributions (φ : Nat → Nat → K)
    (hts : ∀ t ∈ ts, t.row < nrows ∧ t.col < ncols) :
    ∑ i ∈ range nrows, ∑ j ∈ range ncols,
        φ i j * (ts.map fun t => if t.row = i ∧ t.col = j then t.value else 0).sum =
      (ts.map fun t => φ t.row t.col * t.value).sum := by
  induction ts with
  | nil => simp
  | cons t ts ih =>
    obtain ⟨⟨hrow, hcol⟩, hts⟩ := List.forall_mem_cons.mp hts
    simp only [List.map_cons, List.sum_cons, mul_add, sum_add_distrib, ih hts]
    congr 1
    calc ∑ i ∈ range nrows, ∑ j ∈ range ncols,
          φ i j * (if t.row = i ∧ t.col = j then t.value else 0)
        = ∑ i ∈ range nrows, if t.row = i then φ i t.col * t.value else 0 := by
          refine sum_congr rfl fun i _ => ?_
          by_cases hi : t.row = i <;> simp [hi, mem_range.mpr hcol]
      _ = φ t.row t.col * t.value := by simp [mem_range.mpr hrow]

/-- The bilinear form of a sum of contributions. -/
theorem form_ofTriplets (hts : ∀ t ∈ ts, t.row < nrows ∧ t.col < ncols) (x y : Nat → K) :
    (ofTriplets nrows ncols ts.toArray).form x y =
      (ts.map fun t => x t.row * t.value * y t.col).sum := by
  have hweight := sum_weight_contributions nrows ncols (fun i j => x i * y j) hts
  rw [form, nrows_ofTriplets, ncols_ofTriplets]
  calc ∑ i ∈ range nrows, ∑ j ∈ range ncols,
        x i * (ofTriplets nrows ncols ts.toArray).value i j * y j
      = ∑ i ∈ range nrows, ∑ j ∈ range ncols, x i * y j *
          (ts.map fun t => if t.row = i ∧ t.col = j then t.value else 0).sum := by
        refine sum_congr rfl fun i _ => sum_congr rfl fun j _ => ?_
        rw [value_ofTriplets nrows ncols (fun t ht => (hts t ht).1)]
        ring
    _ = (ts.map fun t => x t.row * t.value * y t.col).sum := by
        rw [hweight]
        congr 1
        refine List.map_congr_left fun t _ => ?_
        ring

end OfTriplets

/-! ### Elimination -/

theorem value_mapEntries (m : Csr K) (f : Nat → Nat → K → K) (hf : ∀ i j, f i j 0 = 0)
    (i j : Nat) : (m.mapEntries f).value i j = f i j (m.value i j) := by
  rw [value, value, entry?, entry?, getD_rows_mapEntries, Row.find?_map]
  cases Row.find? j (m.rows.getD i []) with
  | none => exact (hf i j).symm
  | some v => rfl

theorem value_clear (m : Csr K) (isEssential : Nat → Bool) (i j : Nat) :
    (m.clear isEssential).value i j =
      if i ≠ j ∧ (isEssential i || isEssential j) then 0 else m.value i j :=
  value_mapEntries m _ (fun i j => by split <;> rfl) i j

end Csr

end LowOrderRefinement
