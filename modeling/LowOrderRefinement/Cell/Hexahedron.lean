import LowOrderRefinement.Cell.Shape
import LowOrderRefinement.Tensor

/-! Hexahedra and the Jacobian of the trilinear map from the unit cube onto one. The
Jacobian is given in two ways, in closed form and as the product of the vertex
coordinates with the gradients of the shape functions; the two agree in exact
arithmetic. -/

namespace LowOrderRefinement

/-- A hexahedron by its vertices: the bottom face and then the top face, each counter-clockwise. -/
structure Hexahedron (α : Type) where
  v0 : Vec3 α
  v1 : Vec3 α
  v2 : Vec3 α
  v3 : Vec3 α
  v4 : Vec3 α
  v5 : Vec3 α
  v6 : Vec3 α
  v7 : Vec3 α

namespace Hexahedron

variable {α : Type}

/-- The hexahedron whose vertex coordinates are listed vertex by vertex. -/
def ofCoordinates : List α → Checked (Hexahedron α)
  | [x0, y0, z0, x1, y1, z1, x2, y2, z2, x3, y3, z3,
      x4, y4, z4, x5, y5, z5, x6, y6, z6, x7, y7, z7] =>
    .ok ⟨⟨x0, y0, z0⟩, ⟨x1, y1, z1⟩, ⟨x2, y2, z2⟩, ⟨x3, y3, z3⟩,
      ⟨x4, y4, z4⟩, ⟨x5, y5, z5⟩, ⟨x6, y6, z6⟩, ⟨x7, y7, z7⟩⟩
  | _ => .error .wrongLength

def vertices (cell : Hexahedron α) : List (Vec3 α) :=
  [cell.v0, cell.v1, cell.v2, cell.v3, cell.v4, cell.v5, cell.v6, cell.v7]

variable [Scalar α]

def gradients (ξ : Vec3 α) : List (Vec3 α) :=
  Shape.cubeVertices.map fun (a, b, c) =>
    ⟨Shape.slope a * Shape.value b ξ.y * Shape.value c ξ.z,
      Shape.value a ξ.x * Shape.slope b * Shape.value c ξ.z,
      Shape.value a ξ.x * Shape.value b ξ.y * Shape.slope c⟩

/-- The matrix whose entries combine one coordinate of the vertices with one derivative. -/
def combine (entry : (Vec3 α → α) → (Vec3 α → α) → α) : Mat3 α :=
  { xx := entry (·.x) (·.x), xy := entry (·.x) (·.y), xz := entry (·.x) (·.z)
    yx := entry (·.y) (·.x), yy := entry (·.y) (·.y), yz := entry (·.y) (·.z)
    zx := entry (·.z) (·.x), zy := entry (·.z) (·.y), zz := entry (·.z) (·.z) }

/-- The product of the vertex coordinates with the gradients of the shape functions. -/
def jacobianOfGradients (cell : Hexahedron α) (ξ : Vec3 α) : Mat3 α :=
  let g := gradients ξ
  combine fun coordinate derivative =>
    Scalar.dot (cell.vertices.map coordinate) (g.map derivative)

/-- The derivatives of the shape functions, multiplied out, vertex by vertex. -/
def derivatives (ξ : Vec3 α) : List (Vec3 α) :=
  let x := ξ.x
  let y := ξ.y
  let z := ξ.z
  let xm := 1 - x
  let ym := 1 - y
  let zm := 1 - z
  [⟨(-ym) * zm, (-xm) * zm, (-xm) * ym⟩,
    ⟨ym * zm, (-x) * zm, (-x) * ym⟩,
    ⟨y * zm, x * zm, (-x) * y⟩,
    ⟨(-y) * zm, xm * zm, (-xm) * y⟩,
    ⟨(-ym) * z, (-xm) * z, xm * ym⟩,
    ⟨ym * z, (-x) * z, x * ym⟩,
    ⟨y * z, x * z, x * y⟩,
    ⟨(-y) * z, xm * z, xm * y⟩]

def jacobian (cell : Hexahedron α) (ξ : Vec3 α) : Mat3 α :=
  let weights := derivatives ξ
  combine fun coordinate derivative =>
    (weights.zip cell.vertices).foldl (fun acc (w, v) => acc + derivative w * coordinate v) 0

end Hexahedron

end LowOrderRefinement
