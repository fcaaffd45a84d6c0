import LowOrderRefinement.Hat
import LowOrderRefinement.Sparse.Triplet
import LowOrderRefinement.Tensor

/-! The contributions of a planar element, pair by pair. The nodes of an element of
order `p` form a grid of `p + 1` by `p + 1`, and a node is coupled to the nodes at
most one step away along both axes. The value of a pair sums, over the sub-cells
that have both nodes as corners and over the quadrature points of these, the
metric applied to the gradients of the two hat functions. -/

namespace LowOrderRefinement.Stencil.Planar

variable {α : Type}

/-- A node of the grid. -/
structure Node where
  x : Nat
  y : Nat
deriving DecidableEq

def Node.number (order : Nat) (n : Node) : Nat := n.x + n.y * (order + 1)

/-- A quadrature point of a sub-cell of the grid. -/
structure Sample where
  kx : Nat
  ky : Nat
  qx : Nat
  qy : Nat
deriving DecidableEq

def Sample.cell (order : Nat) (s : Sample) : Nat := s.kx + s.ky * order

def Sample.point (s : Sample) : Nat := s.qx + s.qy * 2

/-- The quadrature points of the sub-cells that have both nodes as corners. -/
def support (order : Nat) (i j : Node) : List Sample :=
  (Hat.sharedCells i.y j.y order).flatMap fun ky =>
    (Hat.sharedCells i.x j.x order).flatMap fun kx =>
      [0, 1].flatMap fun qy => [0, 1].map fun qx => ⟨kx, ky, qx, qy⟩

variable [Scalar α]

def gradient (n : Node) (s : Sample) : Vec2 α :=
  let (vx, dx) := Hat.sample n.x s.kx s.qx
  let (vy, dy) := Hat.sample n.y s.ky s.qy
  ⟨dx * vy, vx * dy⟩

def accumulate (acc : α) (u v : Vec2 α) (m : Sym2 α) : α :=
  acc + u.x * v.x * m.xx + (u.y * v.x + u.x * v.y) * m.xy + u.y * v.y * m.yy

/-- The value of a pair of nodes. -/
def coupling (order : Nat) (metric : Nat → Nat → Sym2 α) (i j : Node) : α :=
  (support order i j).foldl (fun acc s =>
    accumulate acc (gradient i s) (gradient j s) (metric (s.cell order) s.point)) 0

def nodes (order : Nat) : List Node :=
  (List.range (order + 1)).flatMap fun y => (List.range (order + 1)).map fun x => ⟨x, y⟩

/-- The nodes to which a node is coupled, the second axis fastest. -/
def neighbours (order : Nat) (i : Node) : List Node :=
  (Hat.neighbours i.x (order + 1)).flatMap fun x =>
    (Hat.neighbours i.y (order + 1)).map fun y => ⟨x, y⟩

/-- The contributions of an element by the numbers of its nodes, given the metric by sub-cell and
quadrature point. -/
def triplets (order : Nat) (metric : Nat → Nat → Sym2 α) : List (Triplet α) :=
  (nodes order).flatMap fun i => (neighbours order i).map fun j =>
    ⟨i.number order, j.number order, coupling order metric i j⟩

end LowOrderRefinement.Stencil.Planar
