/-! The arithmetic in which geometry and matrices are computed. No law is asked of
the operations, so that floating-point numbers of any width are scalars and every
expression is evaluated in exactly the order in which it is written. Exact
arithmetic in an ordered field is another reading of the same definitions. -/

namespace LowOrderRefinement

/-- The operations that assembly uses on numbers. -/
class Scalar (α : Type) extends Add α, Sub α, Mul α, Div α, Neg α, Zero α, One α where
  half : α
  sqrt : α → α
  /-- Whether a number is greater than zero; an undefined number is not. -/
  isPos : α → Bool
  /-- Whether one number is at most another; an undefined number is comparable to none. -/
  le : α → α → Bool
  /-- The number nearest to a size. -/
  ofNat : Nat → α
  /-- The number nearest to the reciprocal of a size. -/
  recip : Nat → α

namespace Scalar

variable {α : Type} [Scalar α]

/-- Neither greater nor smaller than zero. -/
def isZero (x : α) : Bool := le x 0 && le 0 x

def abs (x : α) : α := if le 0 x then x else -x

/-- The larger of a running maximum and a new value, where an undefined value is ignored. -/
def maxDefined (acc x : α) : α := if le acc x then x else acc

/-- The sum of the terms from left to right, starting with the first one. -/
def sumLeft : List α → α
  | [] => 0
  | x :: xs => xs.foldl (· + ·) x

def dot (xs ys : List α) : α := sumLeft (xs.zipWith (· * ·) ys)

end Scalar

instance : Scalar Float where
  zero := 0
  one := 1
  half := 0.5
  sqrt := Float.sqrt
  isPos x := decide (0 < x)
  le x y := decide (x ≤ y)
  ofNat n := Float.ofNat n
  recip n := 1 / Float.ofNat n

instance : Scalar Float32 where
  zero := 0
  one := 1
  half := 0.5
  sqrt := Float32.sqrt
  isPos x := decide (0 < x)
  le x y := decide (x ≤ y)
  ofNat n := (Float.ofNat n).toFloat32
  recip n := (1 / Float.ofNat n).toFloat32

/-- A scalar with a finite width, which can be widened to double precision and narrowed back. -/
class Width (α : Type) extends Scalar α where
  widen : α → Float
  narrow : Float → α

instance : Width Float where
  widen := id
  narrow := id

instance : Width Float32 where
  widen := Float32.toFloat
  narrow := Float.toFloat32

end LowOrderRefinement
