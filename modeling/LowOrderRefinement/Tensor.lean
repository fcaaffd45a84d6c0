import LowOrderRefinement.Scalar

/-! Vectors, matrices and symmetric tensors in two and three dimensions. Products
sum from the first term on, in increasing order of the summation index, so that
they are determined also when addition is not associative. -/

namespace LowOrderRefinement

variable {α : Type}

/-- A vector in the plane. -/
structure Vec2 (α : Type) where
  x : α
  y : α
deriving DecidableEq

/-- A vector in space. -/
structure Vec3 (α : Type) where
  x : α
  y : α
  z : α
deriving DecidableEq

/-- A two by two matrix; `xy` is the entry in the first row and second column. -/
structure Mat2 (α : Type) where
  xx : α
  xy : α
  yx : α
  yy : α
deriving DecidableEq

/-- A three by three matrix; `xz` is the entry in the first row and third column. -/
structure Mat3 (α : Type) where
  xx : α
  xy : α
  xz : α
  yx : α
  yy : α
  yz : α
  zx : α
  zy : α
  zz : α
deriving DecidableEq

/-- A symmetric tensor in the plane, stored as its upper triangle by rows. -/
structure Sym2 (α : Type) where
  xx : α
  xy : α
  yy : α
deriving DecidableEq

/-- A symmetric tensor in space, stored as its upper triangle by rows. -/
structure Sym3 (α : Type) where
  xx : α
  xy : α
  xz : α
  yy : α
  yz : α
  zz : α
deriving DecidableEq

namespace Vec2

def toList (v : Vec2 α) : List α := [v.x, v.y]

def dot [Scalar α] (u v : Vec2 α) : α := u.x * v.x + u.y * v.y

end Vec2

namespace Vec3

def toList (v : Vec3 α) : List α := [v.x, v.y, v.z]

def dot [Scalar α] (u v : Vec3 α) : α := u.x * v.x + u.y * v.y + u.z * v.z

end Vec3

namespace Mat2

variable [Scalar α]

def rows (m : Mat2 α) : List (List α) := [[m.xx, m.xy], [m.yx, m.yy]]

def transpose (m : Mat2 α) : Mat2 α := ⟨m.xx, m.yx, m.xy, m.yy⟩

def mulVec (m : Mat2 α) (v : Vec2 α) : Vec2 α :=
  ⟨m.xx * v.x + m.xy * v.y, m.yx * v.x + m.yy * v.y⟩

def sub (a b : Mat2 α) : Mat2 α :=
  ⟨a.xx - b.xx, a.xy - b.xy, a.yx - b.yx, a.yy - b.yy⟩

/-- The square root of the sum of the squared entries, column by column. -/
def norm (m : Mat2 α) : α :=
  Scalar.sqrt ((0 + (m.xx * m.xx + m.yx * m.yx)) + (m.xy * m.xy + m.yy * m.yy))

def det (m : Mat2 α) : α := m.xx * m.yy - m.yx * m.xy

/-- The inverse, unless the determinant is exactly zero. -/
def inverse (m : Mat2 α) : Option (Mat2 α) :=
  let d := m.det
  if Scalar.isZero d then none else some ⟨m.yy / d, -m.xy / d, -m.yx / d, m.xx / d⟩

end Mat2

namespace Mat3

variable [Scalar α]

def rows (m : Mat3 α) : List (List α) :=
  [[m.xx, m.xy, m.xz], [m.yx, m.yy, m.yz], [m.zx, m.zy, m.zz]]

def transpose (m : Mat3 α) : Mat3 α :=
  ⟨m.xx, m.yx, m.zx, m.xy, m.yy, m.zy, m.xz, m.yz, m.zz⟩

def mulVec (m : Mat3 α) (v : Vec3 α) : Vec3 α :=
  ⟨m.xx * v.x + m.xy * v.y + m.xz * v.z,
    m.yx * v.x + m.yy * v.y + m.yz * v.z,
    m.zx * v.x + m.zy * v.y + m.zz * v.z⟩

/-- The determinant, expanded along the first row. -/
def det (m : Mat3 α) : α :=
  m.xx * (m.yy * m.zz - m.zy * m.yz) - m.xy * (m.yx * m.zz - m.zx * m.yz)
    + m.xz * (m.yx * m.zy - m.zx * m.yy)

def inverse (m : Mat3 α) : Option (Mat3 α) :=
  let d := m.det
  if Scalar.isZero d then none
  else some
    { xx := (m.yy * m.zz - m.zy * m.yz) / d
      xy := (m.xz * m.zy - m.zz * m.xy) / d
      xz := (m.xy * m.yz - m.yy * m.xz) / d
      yx := -(m.yx * m.zz - m.zx * m.yz) / d
      yy := (m.xx * m.zz - m.zx * m.xz) / d
      yz := (m.xz * m.yx - m.yz * m.xx) / d
      zx := (m.yx * m.zy - m.zx * m.yy) / d
      zy := (m.xy * m.zx - m.zy * m.xx) / d
      zz := (m.xx * m.yy - m.yx * m.xy) / d }

end Mat3

namespace Sym2

def toList (m : Sym2 α) : List α := [m.xx, m.xy, m.yy]

end Sym2

namespace Sym3

def toList (m : Sym3 α) : List α := [m.xx, m.xy, m.xz, m.yy, m.yz, m.zz]

def toMat (m : Sym3 α) : Mat3 α :=
  ⟨m.xx, m.xy, m.xz, m.xy, m.yy, m.yz, m.xz, m.yz, m.zz⟩

end Sym3

end LowOrderRefinement
