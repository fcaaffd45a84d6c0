import LowOrderRefinement.Scalar
import LowOrderRefinement.Sparse.Csr

/-! Measures of how far a matrix is from a symmetric one with rows that sum to zero. -/

namespace LowOrderRefinement.Csr

variable {α : Type} [Scalar α]

/-- The largest absolute value of the sum of a row. -/
def maxRowSum (m : Csr α) : α :=
  m.rows.foldl (fun acc row =>
    Scalar.maxDefined acc (Scalar.abs ((row.map (·.2)).foldl (· + ·) 0))) 0

/-- The largest difference between a stored entry and the one across the diagonal, which is zero
when it is not stored. -/
def maxAsymmetry (m : Csr α) : α :=
  m.triplets.foldl (fun acc t =>
    Scalar.maxDefined acc (Scalar.abs (t.value - (m.entry? t.col t.row).getD 0))) 0

end LowOrderRefinement.Csr
