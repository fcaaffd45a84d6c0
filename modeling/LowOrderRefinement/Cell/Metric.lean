import LowOrderRefinement.Tensor

/-! The metric of a sub-cell at a quadrature point: for a Jacobian `J` and a weight
`w`, the symmetric tensor `w adj(J) adj(J)ᵀ / det J`, in which the bilinear form of
two reference gradients is evaluated. A Jacobian has a metric only when its
determinant is positive. -/

namespace LowOrderRefinement.Metric

variable {α : Type} [Scalar α]

/-- The metric of a planar Jacobian, or its determinant when that is not positive. -/
def planar (j : Mat2 α) (weight : α) : Except α (Sym2 α) :=
  let det := j.det
  if Scalar.isPos det then
    let w := weight / det
    .ok
      { xx := w * (j.xy * j.xy + j.yy * j.yy)
        xy := (-w) * (j.xy * j.xx + j.yy * j.yx)
        yy := w * (j.xx * j.xx + j.yx * j.yx) }
  else .error det

def solidDet (j : Mat3 α) : α :=
  j.xx * (j.yy * j.zz - j.zy * j.yz) - j.yx * (j.xy * j.zz - j.zy * j.xz)
    + j.zx * (j.xy * j.yz - j.yy * j.xz)

def adjugateX (j : Mat3 α) : Vec3 α :=
  ⟨j.yy * j.zz - j.yz * j.zy, j.zy * j.xz - j.xy * j.zz, j.xy * j.yz - j.yy * j.xz⟩

def adjugateY (j : Mat3 α) : Vec3 α :=
  ⟨j.zx * j.yz - j.yx * j.zz, j.xx * j.zz - j.xz * j.zx, j.yx * j.xz - j.xx * j.yz⟩

def adjugateZ (j : Mat3 α) : Vec3 α :=
  ⟨j.yx * j.zy - j.zx * j.yy, j.zx * j.xy - j.xx * j.zy, j.xx * j.yy - j.xy * j.yx⟩

/-- The metric of a spatial Jacobian, or its determinant when that is not positive. -/
def solid (j : Mat3 α) (weight : α) : Except α (Sym3 α) :=
  let det := solidDet j
  if Scalar.isPos det then
    let w := weight / det
    let x := adjugateX j
    let y := adjugateY j
    let z := adjugateZ j
    .ok
      { xx := x.dot x * w, xy := x.dot y * w, xz := x.dot z * w
        yy := y.dot y * w, yz := y.dot z * w, zz := z.dot z * w }
  else .error det

end LowOrderRefinement.Metric
