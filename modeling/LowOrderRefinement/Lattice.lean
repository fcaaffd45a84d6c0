import LowOrderRefinement.Size

/-! Numbering of the points of a box of integer coordinates, with the first axis
fastest. A shape lists the extents of the axes and an index the coordinates; the
number of a point is the value of its coordinates as digits in the mixed radix of
the shape. -/

namespace LowOrderRefinement.Lattice

-- products have one meaning, whatever is imported
attribute [local instance (1100)] One.ofOfNat1

/-- The number of the point with the given coordinates. -/
def flatten : List Nat → List Nat → Nat
  | i :: is, n :: ns => flatten is ns * n + i
  | _, _ => 0

/-- The number of a point whose coordinates may lie outside of the box, which has to be a size. -/
def flattenChecked : List Nat → List Nat → Checked Nat
  | i :: is, n :: ns => do Size.add (← Size.mul (← flattenChecked is ns) n) i
  | _, _ => .ok 0

def unflatten (k : Nat) : List Nat → List Nat
  | [] => []
  | n :: ns => k % n :: unflatten (k / n) ns

/-- Whether the coordinates are as many as the extents and below them. -/
def inBox : List Nat → List Nat → Bool
  | [], [] => true
  | i :: is, n :: ns => decide (i < n) && inBox is ns
  | _, _ => false

@[simp] theorem length_unflatten (k : Nat) (shape : List Nat) :
    (unflatten k shape).length = shape.length := by
  induction shape generalizing k with
  | nil => rfl
  | cons n ns ih => simp [unflatten, ih]

theorem place_lt {row col rows length : Nat} (hrow : row < rows) (hcol : col < length) :
    row * length + col < rows * length := by
  calc row * length + col < row * length + length := Nat.add_lt_add_left hcol _
    _ = (row + 1) * length := (Nat.succ_mul row length).symm
    _ ≤ rows * length := Nat.mul_le_mul_right length hrow

theorem place_div {row col length : Nat} (hcol : col < length) :
    (row * length + col) / length = row := by
  rw [Nat.mul_comm, Nat.mul_add_div (Nat.lt_of_le_of_lt (Nat.zero_le col) hcol),
    Nat.div_eq_of_lt hcol, Nat.add_zero]

theorem place_inj {row col row' col' length : Nat} (hcol : col < length) (hcol' : col' < length)
    (h : row * length + col = row' * length + col') : row = row' ∧ col = col' := by
  have hdiv := congrArg (· / length) h
  have hmod := congrArg (· % length) h
  simp only [place_div hcol, place_div hcol'] at hdiv
  simp only [Nat.mul_add_mod_of_lt hcol, Nat.mul_add_mod_of_lt hcol'] at hmod
  exact ⟨hdiv, hmod⟩

theorem flatten_lt {index shape : List Nat} (h : inBox index shape) :
    flatten index shape < shape.prod := by
  fun_induction inBox index shape with
  | case1 => simp [flatten]
  | case2 i is n ns ih =>
    simp only [Bool.and_eq_true, decide_eq_true_eq] at h
    rw [flatten, List.prod_cons, Nat.mul_comm n]
    exact place_lt (ih h.2) h.1
  | case3 => cases h

/-- Coordinates are recovered from the number of a point in a box. -/
theorem unflatten_flatten {index shape : List Nat} (h : inBox index shape) :
    unflatten (flatten index shape) shape = index := by
  fun_induction inBox index shape with
  | case1 => rfl
  | case2 i is n ns ih =>
    simp only [Bool.and_eq_true, decide_eq_true_eq] at h
    rw [flatten, unflatten, Nat.mul_add_mod_of_lt h.1, place_div h.1, ih h.2]
  | case3 => cases h

theorem flatten_unflatten {k : Nat} {shape : List Nat} (h : k < shape.prod) :
    flatten (unflatten k shape) shape = k := by
  induction shape generalizing k with
  | nil => simp_all [unflatten, flatten]
  | cons n ns ih =>
    rw [List.prod_cons] at h
    rw [unflatten, flatten, ih (Nat.div_lt_of_lt_mul h), Nat.mul_comm, Nat.div_add_mod]

theorem inBox_unflatten {k : Nat} {shape : List Nat} (h : 0 < shape.prod) :
    inBox (unflatten k shape) shape := by
  induction shape generalizing k with
  | nil => rfl
  | cons n ns ih =>
    rw [List.prod_cons] at h
    simp [unflatten, inBox, Nat.mod_lt k (Nat.pos_of_mul_pos_right h),
      ih (Nat.pos_of_mul_pos_left h)]

/-- All points of a box, in increasing order of their numbers. -/
def points (shape : List Nat) : List (List Nat) :=
  (List.range shape.prod).map fun k => unflatten k shape

def shift (a b : List Nat) : List Nat := a.zipWith (· + ·) b

end LowOrderRefinement.Lattice
