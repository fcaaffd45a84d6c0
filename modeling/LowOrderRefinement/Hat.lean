import LowOrderRefinement.Scalar
import LowOrderRefinement.Size

/-! Hat functions on a row of cells. The hat function of a node is linear on each of
the two cells beside the node and is sampled at the ends of these cells; samples
are numbered from the left end of the left cell to the right end of the right
cell. Two hat functions meet on the cells that are adjacent to both nodes. -/

namespace LowOrderRefinement.Hat

variable {α : Type} [Scalar α]

/-- The values and slopes of a hat function at its samples; slopes are per cell. -/
def samples : List (α × α) := [(0, 1), (1, 1), (1, -1), (0, -1)]

def sampleIndex (node cell q : Nat) : Nat := (cell + 1 - node) * 2 + q

/-- The value and slope of the hat function of `node` at end `q` of an adjacent cell. -/
def sample (node cell q : Nat) : α × α := samples.getD (sampleIndex node cell q) (0, 0)

/-- The value and slope of a hat function at a sample that has to exist. -/
def sampleChecked (node cell q : Nat) : Checked (α × α) := do
  let next ← Size.add cell 1
  require (node ≤ next && cell ≤ node) .notAdjacent
  let index := sampleIndex node cell q
  require (index < (samples : List (α × α)).length) .outOfRange
  return samples.getD index (0, 0)

/-- The bounds of the range of cells adjacent to two nodes of a row of `order` cells. -/
def sharedBounds (i j order : Nat) : Nat × Nat :=
  let first := max (i - 1) (j - 1)
  let stop := min (min i (order - 1)) j + 1
  (first, max stop first)

/-- The bounds of the shared cells of a row that has to have a cell, computed with sizes. -/
def sharedBoundsChecked (i j order : Nat) : Checked (Nat × Nat) := do
  require (0 < order) .sizeOverflow
  let first := max (i - 1) (j - 1)
  let stop ← Size.add (min (min i (order - 1)) j) 1
  return (first, max stop first)

def sharedCells (i j order : Nat) : List Nat :=
  let (first, stop) := sharedBounds i j order
  List.range' first (stop - first)

/-- The nodes at most one cell away from node `i` of a row of `nodes` nodes. -/
def neighbours (i nodes : Nat) : List Nat :=
  let first := i - 1
  List.range' first (min (i + 1) (nodes - 1) + 1 - first)

end LowOrderRefinement.Hat
