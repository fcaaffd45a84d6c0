/-! Contributions to the entries of a matrix. -/

namespace LowOrderRefinement

/-- A value to be added to the entry in a row and column. -/
structure Triplet (α : Type) where
  row : Nat
  col : Nat
  value : α
deriving DecidableEq

def Triplet.relabel {α : Type} (t : Triplet α) (f : Nat → Nat) : Triplet α :=
  { row := f t.row, col := f t.col, value := t.value }

end LowOrderRefinement
