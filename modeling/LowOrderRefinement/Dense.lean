import LowOrderRefinement.Scalar
import LowOrderRefinement.Size

/-! Matrices with all entries in storage, row by row. -/

namespace LowOrderRefinement

/-- A matrix with its entries row by row. -/
structure Dense (α : Type) where
  nrows : Nat
  ncols : Nat
  entries : Array α
  size_entries : entries.size = nrows * ncols

namespace Dense

variable {α : Type}

/-- The matrix with the given entries, which have to be as many as the shape asks for. -/
def ofEntries (nrows ncols : Nat) (entries : Array α) : Checked (Dense α) :=
  if h : entries.size = nrows * ncols then .ok ⟨nrows, ncols, entries, h⟩
  else .error .wrongLength

def get? (m : Dense α) (row col : Nat) : Option α :=
  if row < m.nrows ∧ col < m.ncols then m.entries[row * m.ncols + col]? else none

def rows (m : Dense α) : List (List α) :=
  (List.range m.nrows).map fun i => (List.range m.ncols).filterMap (m.get? i)

variable [Scalar α]

def zeros (nrows ncols : Nat) : Checked (Dense α) := do
  let size ← Size.mul nrows ncols
  Size.reserve size
  ofEntries nrows ncols (Array.replicate size 0)

def add (m : Dense α) (row col : Nat) (value : α) : Checked (Dense α) := do
  require (row < m.nrows && col < m.ncols) .outOfRange
  return { m with
    entries := m.entries.modify (row * m.ncols + col) (· + value)
    size_entries := by simp [m.size_entries] }

end Dense

end LowOrderRefinement
