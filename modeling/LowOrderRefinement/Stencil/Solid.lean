import LowOrderRefinement.Sparse.Triplet
import LowOrderRefinement.Tensor

/-! The contributions of a spatial element, sub-cell by sub-cell. Every sub-cell has a
local matrix over its eight corners, which sums the metric applied to the
gradients of two corner functions over the eight quadrature points. Corners and
quadrature points are both numbered with the first axis fastest. -/

namespace LowOrderRefinement.Stencil.Solid

variable {α : Type}

/-- A corner of a cube, with coordinates zero or one. -/
structure Corner where
  x : Nat
  y : Nat
  z : Nat
deriving DecidableEq

def corners : List Corner :=
  (List.range 8).map fun n => ⟨n % 2, n / 2 % 2, n / 4⟩

/-- The coordinates of a sub-cell in the grid of its element. -/
structure Cell where
  x : Nat
  y : Nat
  z : Nat
deriving DecidableEq

def cells (order : Nat) : List Cell :=
  (List.range order).flatMap fun z => (List.range order).flatMap fun y =>
    (List.range order).map fun x => ⟨x, y, z⟩

def Cell.number (order : Nat) (k : Cell) : Nat := k.x + k.y * order + k.z * (order * order)

def Cell.node (order : Nat) (k : Cell) (c : Corner) : Nat :=
  (c.x + k.x) + (c.y + k.y) * (order + 1) + (c.z + k.z) * (order + 1) * (order + 1)

variable [Scalar α]

def slope (i : Nat) : α := if i = 0 then -1 else 1

def delta (i q : Nat) : α := if i = q then 1 else 0

/-- The gradient of the function of corner `i` at corner `q`. -/
def gradient (q i : Corner) : Vec3 α :=
  ⟨slope i.x * delta i.y q.y * delta i.z q.z,
    delta i.x q.x * slope i.y * delta i.z q.z,
    delta i.x q.x * delta i.y q.y * slope i.z⟩

def gradients : List (List (Vec3 α)) :=
  corners.map fun q => corners.map fun i => gradient q i

/-- The products of all pairs of gradients in the metric of one point, column by column. -/
def pointMatrix (metric : Sym3 α) (gradients : List (Vec3 α)) : List α :=
  gradients.flatMap fun gj =>
    let image := metric.toMat.mulVec gj
    gradients.map fun gi => gi.dot image

/-- The local matrix of a sub-cell, column by column, from its metric at the quadrature points and
the gradients there. -/
def localMatrix (metric : List (Sym3 α)) (gradients : List (List (Vec3 α))) : List α :=
  (metric.zip gradients).foldl
    (fun acc (m, g) => acc.zipWith (· + ·) (pointMatrix m g)) (List.replicate 64 0)

def cornerPairs : List (Corner × Corner) :=
  corners.flatMap fun j => corners.map fun i => (i, j)

/-- The contributions of an element by the numbers of its nodes, given the metric by sub-cell and
quadrature point. -/
def triplets (order : Nat) (metric : Nat → Nat → Sym3 α) : List (Triplet α) :=
  let table := gradients
  (cells order).flatMap fun k =>
    let entries := localMatrix ((List.range 8).map (metric (k.number order))) table
    (cornerPairs.zip entries).map fun ((i, j), value) =>
      ⟨k.node order i, k.node order j, value⟩

end LowOrderRefinement.Stencil.Solid
