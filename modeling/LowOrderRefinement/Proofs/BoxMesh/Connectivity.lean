import Mathlib.Algebra.Order.BigOperators.Group.List
import Mathlib.Tactic.IntervalCases
import LowOrderRefinement.Cell.Shape
import LowOrderRefinement.Lattice

/-! Functions on the nodes of a box of cells. A function with one value on the corners
of each cell has one value on all nodes: a node that is not the origin lies at a
corner of a cell that also has the node one step back along every axis, as far as
the box allows, as a corner, and such steps lead to the origin. -/

namespace LowOrderRefinement

namespace Lattice

variable {β : Type}

def nodeShape (cells : List Nat) : List Nat := cells.map (· + 1)

/-- Coordinates of a corner of a cell: zero or one along every axis. -/
def IsCorner (corner cells : List Nat) : Prop := inBox corner (cells.map fun _ => 2)

theorem inBox_replicate {index : List Nat} {d n : Nat} :
    inBox index (List.replicate d n) ↔ index.length = d ∧ ∀ c ∈ index, c < n := by
  induction d generalizing index with
  | zero => cases index <;> simp [inBox]
  | succ d ih =>
    cases index with
    | nil => simp [inBox, List.replicate_succ]
    | cons c index =>
      rw [List.replicate_succ, inBox, Bool.and_eq_true, decide_eq_true_eq, ih, List.length_cons,
        List.forall_mem_cons, Nat.succ_inj]
      exact and_left_comm

/-- One step back along every axis, as far as possible. -/
def back (node : List Nat) : List Nat := node.map (· - 1)

/-- The corner at which a node lies in the cell one step back. -/
def backCorner (node : List Nat) : List Nat := node.map (min · 1)

theorem shift_back (node : List Nat) : shift (back node) (backCorner node) = node := by
  induction node with
  | nil => rfl
  | cons i node ih =>
    have hi : i - 1 + min i 1 = i := by omega
    rw [back, backCorner, List.map_cons, List.map_cons, shift, List.zipWith_cons_cons, hi]
    exact congrArg (i :: ·) ih

theorem inBox_back {node cells : List Nat} (hpos : ∀ n ∈ cells, 0 < n)
    (h : inBox node (nodeShape cells)) : inBox (back node) cells := by
  induction cells generalizing node with
  | nil => cases node <;> simp_all [nodeShape, inBox, back]
  | cons n cells ih =>
    obtain ⟨hn, hcells⟩ := List.forall_mem_cons.mp hpos
    cases node with
    | nil => cases h
    | cons i node =>
      simp only [nodeShape, List.map_cons, inBox, Bool.and_eq_true, decide_eq_true_eq] at h
      simp only [back, List.map_cons, inBox, Bool.and_eq_true, decide_eq_true_eq]
      exact ⟨by omega, ih hcells h.2⟩

theorem length_eq_of_inBox {index shape : List Nat} (h : inBox index shape) :
    index.length = shape.length := by
  fun_induction inBox index shape with
  | case1 => rfl
  | case2 i is n ns ih =>
    simp only [Bool.and_eq_true] at h
    rw [List.length_cons, List.length_cons, ih h.2]
  | case3 => cases h

theorem isCorner_backCorner {node cells : List Nat} (h : node.length = cells.length) :
    IsCorner (backCorner node) cells := by
  induction node generalizing cells with
  | nil => cases cells <;> simp_all [IsCorner, backCorner, inBox]
  | cons i node ih =>
    cases cells with
    | nil => cases h
    | cons n cells =>
      have hrest : IsCorner (backCorner node) cells := ih (by simpa using h)
      simp only [IsCorner, backCorner, List.map_cons, inBox, Bool.and_eq_true,
        decide_eq_true_eq] at hrest ⊢
      exact ⟨by omega, hrest⟩

theorem isCorner_origin (cells : List Nat) : IsCorner (cells.map fun _ => 0) cells := by
  induction cells with
  | nil => rfl
  | cons n cells ih => simpa [IsCorner, inBox] using ih

theorem shift_origin {cell cells : List Nat} (h : cell.length = cells.length) :
    shift cell (cells.map fun _ => 0) = cell := by
  induction cell generalizing cells with
  | nil => cases cells <;> rfl
  | cons i cell ih =>
    cases cells with
    | nil => cases h
    | cons n cells =>
      rw [List.map_cons, shift, List.zipWith_cons_cons, Nat.add_zero]
      exact congrArg (i :: ·) (ih (by simpa using h))

theorem inBox_of_back {node cells : List Nat} (h : inBox node (nodeShape cells)) :
    inBox (back node) (nodeShape cells) := by
  induction cells generalizing node with
  | nil => cases node <;> simp_all [nodeShape, inBox, back]
  | cons n cells ih =>
    cases node with
    | nil => cases h
    | cons i node =>
      simp only [nodeShape, List.map_cons, inBox, Bool.and_eq_true, decide_eq_true_eq] at h
      simp only [back, nodeShape, List.map_cons, inBox, Bool.and_eq_true, decide_eq_true_eq]
      exact ⟨by omega, ih h.2⟩

/-- A function has one value on the corners of each cell. -/
def ConstOnCells (f : List Nat → β) (cells : List Nat) : Prop :=
  ∀ cell, inBox cell cells → ∀ v w, IsCorner v cells → IsCorner w cells →
    f (shift cell v) = f (shift cell w)

section Constant

variable {f : List Nat → β} {cells : List Nat}

theorem eq_back (hf : ConstOnCells f cells) (hpos : ∀ n ∈ cells, 0 < n) {node : List Nat}
    (h : inBox node (nodeShape cells)) : f node = f (back node) := by
  have hcell := inBox_back hpos h
  have hlength : node.length = cells.length := by
    simpa [nodeShape] using length_eq_of_inBox h
  have hsame := hf (back node) hcell (backCorner node) (cells.map fun _ => 0)
    (isCorner_backCorner hlength) (isCorner_origin cells)
  rwa [shift_back, shift_origin (length_eq_of_inBox hcell)] at hsame

theorem eq_origin (hf : ConstOnCells f cells) (hpos : ∀ n ∈ cells, 0 < n) {node : List Nat}
    (h : inBox node (nodeShape cells)) {bound : Nat} (hbound : ∀ i ∈ node, i ≤ bound) :
    f node = f (cells.map fun _ => 0) := by
  induction bound generalizing node with
  | zero =>
    congr 1
    refine List.ext_getElem (by simpa [nodeShape] using length_eq_of_inBox h) fun i hi _ => ?_
    rw [List.getElem_map]
    exact Nat.le_zero.mp (hbound _ (List.getElem_mem hi))
  | succ bound ih =>
    rw [eq_back hf hpos h]
    refine ih (inBox_of_back h) fun i hi => ?_
    obtain ⟨j, hj, rfl⟩ := List.mem_map.mp hi
    have := hbound j hj
    omega

/-- A function with one value on the corners of each cell of a box has one value on all nodes. -/
theorem eq_of_constOnCells (hf : ConstOnCells f cells) (hpos : ∀ n ∈ cells, 0 < n)
    {node node' : List Nat} (h : inBox node (nodeShape cells))
    (h' : inBox node' (nodeShape cells)) : f node = f node' := by
  have hle (xs : List Nat) : ∀ i ∈ xs, i ≤ xs.sum := fun i hi => List.le_sum_of_mem hi
  rw [eq_origin hf hpos h (hle node), eq_origin hf hpos h' (hle node')]

end Constant

end Lattice

theorem Shape.mem_vertices_iff {dim : Dimension} {corner cells : List Nat}
    (hcells : cells.length = dim.value) :
    corner ∈ Shape.vertices dim ↔ Lattice.IsCorner corner cells := by
  rw [Lattice.IsCorner, List.map_const', hcells]
  constructor
  · intro h
    revert corner
    cases dim <;> decide
  · intro h
    have hlength := Lattice.length_eq_of_inBox h
    rw [List.length_replicate] at hlength
    cases dim with
    | two =>
      obtain ⟨a, b, rfl⟩ := List.length_eq_two.mp hlength
      simp only [Dimension.value, List.replicate, Lattice.inBox, Bool.and_true, Bool.and_eq_true,
        decide_eq_true_eq] at h
      obtain ⟨ha, hb⟩ := h
      interval_cases a <;> interval_cases b <;> decide
    | three =>
      obtain ⟨a, b, c, rfl⟩ := List.length_eq_three.mp hlength
      simp only [Dimension.value, List.replicate, Lattice.inBox, Bool.and_true, Bool.and_eq_true,
        decide_eq_true_eq] at h
      obtain ⟨ha, hb, hc⟩ := h
      interval_cases a <;> interval_cases b <;> interval_cases c <;> decide

theorem Shape.mem_vertices {dim : Dimension} {v : List Nat} :
    v ∈ Shape.vertices dim ↔ v.length = dim.value ∧ ∀ c ∈ v, c < 2 := by
  have hcells : (List.replicate dim.value 0).length = dim.value := List.length_replicate
  rw [Shape.mem_vertices_iff hcells, Lattice.IsCorner, List.map_replicate, Lattice.inBox_replicate]

end LowOrderRefinement
