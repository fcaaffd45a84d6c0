import LowOrderRefinement.Dense
import LowOrderRefinement.Sparse.Csr

/-! Accumulation of contributions to a matrix of a given shape. A contribution
outside of the matrix is refused and ends the addition of a sequence of
contributions; those before it stay. -/

namespace LowOrderRefinement

variable {α : Type}

/-- The contributions to a matrix, in the order in which they were added. -/
structure Builder (α : Type) where
  nrows : Nat
  ncols : Nat
  entries : Array (Triplet α)
  inside : ∀ t ∈ entries, t.row < nrows ∧ t.col < ncols

namespace Builder

def empty (nrows ncols : Nat) : Builder α := ⟨nrows, ncols, #[], by simp⟩

def pushed (b : Builder α) : Nat := b.entries.size

/-- Whether a contribution lies inside of the matrix. -/
def admits (b : Builder α) (t : Triplet α) : Bool := t.row < b.nrows && t.col < b.ncols

/-- The builder after the longest initial part of a sequence of contributions that lies inside of
the matrix. -/
def accept (b : Builder α) (ts : List (Triplet α)) : Builder α :=
  { b with
    entries := b.entries ++ (ts.takeWhile b.admits).toArray
    inside := by
      intro t ht
      rcases Array.mem_append.mp ht with ht | ht
      · exact b.inside t ht
      · have := List.all_eq_true.mp (List.all_takeWhile (l := ts)) t (List.mem_toArray.mp ht)
        simpa [admits] using this }

def admitsAll (b : Builder α) (ts : List (Triplet α)) : Checked Unit :=
  require (ts.all b.admits) .outOfRange

/-- The builder that is reached by adding contributions, and whether all of them were added. -/
def push (b : Builder α) (ts : List (Triplet α)) : Builder α × Checked Unit :=
  (b.accept ts, b.admitsAll ts)

def pushAll (b : Builder α) (ts : List (Triplet α)) : Checked (Builder α) := do
  b.admitsAll ts
  return b.accept ts

/-- The contributions of a local matrix over the given indices, column by column. -/
def localTriplets (indices : List Nat) (m : Dense α) : List (Triplet α) :=
  indices.zipIdx.flatMap fun (j, column) =>
    indices.zipIdx.filterMap fun (i, row) => (m.get? row column).map fun v => ⟨i, j, v⟩

/-- The builder that is reached by adding a local matrix that has to have a row and a column for
each index, and whether all of its entries were added. -/
def pushLocal (b : Builder α) (indices : List Nat) (m : Dense α) : Builder α × Checked Unit :=
  if m.nrows = indices.length ∧ m.ncols = indices.length then b.push (localTriplets indices m)
  else (b, .error .wrongLength)

/-- Converts the contributions to rows and eliminates the essential degrees of freedom. -/
def finalizeWith [Scalar α] (convert : Conversion α) (b : Builder α) (essential : List Nat) :
    Journaled Fault (Csr α) := do
  Size.reserve (b.nrows + 1)
  Size.reserve b.ncols
  let m := convert b.nrows b.ncols b.entries
  Journaled.report .debug ("Finalized " ++ toString m.nrows ++ "x" ++ toString m.ncols ++
    " LOR matrix: " ++ toString b.pushed ++ " contributions summed into " ++ toString m.nnz ++
    " stored entries")
  m.eliminate essential

/-- Sums the contributions to each entry and eliminates the essential degrees of freedom. -/
def finalize [Scalar α] (b : Builder α) (essential : List Nat) : Journaled Fault (Csr α) :=
  b.finalizeWith Csr.ofTriplets essential

end Builder

end LowOrderRefinement
