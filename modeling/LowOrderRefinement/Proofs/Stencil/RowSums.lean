import Mathlib.Algebra.BigOperators.Intervals
import Mathlib.Algebra.BigOperators.Ring.Finset
import Mathlib.Tactic.IntervalCases
import LowOrderRefinement.Hat
import LowOrderRefinement.Proofs.ExactField

/-! Sums over a row of cells. Visiting the nodes of a row, the neighbours of each node
and the cells that both share is visiting the cells of the row and, for each cell,
the pairs of its ends. -/

namespace LowOrderRefinement

open Finset

variable {K : Type} [ExactField K]

/-! ### Sums over lists -/

section Lists

variable {β γ : Type}

theorem sum_map_flatMap (xs : List β) (g : β → List γ) (f : γ → K) :
    ((xs.flatMap g).map f).sum = (xs.map fun x => ((g x).map f).sum).sum := by
  induction xs with
  | nil => rfl
  | cons x xs ih => simp [ih]

theorem sum_map_range (f : Nat → K) (n : Nat) :
    ((List.range n).map f).sum = ∑ i ∈ range n, f i := by
  induction n with
  | zero => rfl
  | succ n ih => simp [List.range_succ, sum_range_succ, ih]

theorem sum_map_range' (f : Nat → K) (start n : Nat) :
    ((List.range' start n).map f).sum = ∑ i ∈ Ico start (start + n), f i := by
  rw [List.range'_eq_map_range, List.map_map, sum_Ico_eq_sum_range, Nat.add_sub_cancel_left,
    ← sum_map_range]
  rfl

theorem sum_map_sum (xs : List β) (n : Nat) (f : β → Nat → K) :
    (xs.map fun x => ∑ q ∈ range n, f x q).sum = ∑ q ∈ range n, (xs.map fun x => f x q).sum := by
  induction xs with
  | nil => simp
  | cons x xs ih => simp only [List.map_cons, List.sum_cons, ih, sum_add_distrib]

theorem sum_range_mul (f : Nat → K) (rows length : Nat) :
    ∑ k ∈ range (rows * length), f k =
      ∑ i ∈ range rows, ∑ j ∈ range length, f (i * length + j) := by
  induction rows with
  | zero => simp
  | succ rows ih => rw [Nat.succ_mul, sum_range_add, ih, sum_range_succ]

end Lists

theorem sum_comm_pair (s u : Finset Nat) (t : Nat → Finset Nat) (f : Nat → Nat → Nat → K) :
    ∑ i ∈ s, ∑ j ∈ t i, ∑ k ∈ u, f i j k = ∑ k ∈ u, ∑ i ∈ s, ∑ j ∈ t i, f i j k := by
  rw [sum_congr rfl fun i _ => sum_comm, sum_comm]

namespace Hat

/-! ### Neighbours and shared cells -/

theorem sum_neighbours (f : Nat → K) {i order : Nat} (hi : i ≤ order) :
    ((neighbours i (order + 1)).map f).sum = ∑ j ∈ Ico (i - 1) (min (i + 1) order + 1), f j := by
  rw [neighbours, sum_map_range']
  congr 2
  omega

theorem sum_sharedCells (f : Nat → K) {i j order : Nat} (horder : 0 < order) (hi : i ≤ order)
    (hj : j ∈ Ico (i - 1) (min (i + 1) order + 1)) :
    ((sharedCells i j order).map f).sum =
      ∑ k ∈ Ico (max (i - 1) (j - 1)) (min (min i j) (order - 1) + 1), f k := by
  rw [mem_Ico] at hj
  rw [sharedCells, sharedBounds, sum_map_range']
  congr 2
  omega

/-- Pairs of neighbours with the cells that they share are cells with the pairs of their ends. -/
theorem sum_pairs (F : Nat → Nat → Nat → K) {order : Nat} (horder : 0 < order) :
    ∑ i ∈ range (order + 1), ∑ j ∈ Ico (i - 1) (min (i + 1) order + 1),
        ∑ k ∈ Ico (max (i - 1) (j - 1)) (min (min i j) (order - 1) + 1), F i j k =
      ∑ k ∈ range order, ∑ a ∈ range 2, ∑ b ∈ range 2, F (k + a) (k + b) k := by
  -- for each node, the cells at the node come first, and then the ends of the cell
  have hnode : ∀ i ∈ range (order + 1),
      ∑ j ∈ Ico (i - 1) (min (i + 1) order + 1),
        ∑ k ∈ Ico (max (i - 1) (j - 1)) (min (min i j) (order - 1) + 1), F i j k =
      ∑ k ∈ Ico (i - 1) (min i (order - 1) + 1), ∑ j ∈ Ico k (k + 2), F i j k := by
    intro i hi
    rw [mem_range] at hi
    refine sum_comm' fun j k => ?_
    simp only [mem_Ico]
    omega
  rw [sum_congr rfl hnode]
  have hcells : ∑ i ∈ range (order + 1), ∑ k ∈ Ico (i - 1) (min i (order - 1) + 1),
      ∑ j ∈ Ico k (k + 2), F i j k =
      ∑ k ∈ range order, ∑ i ∈ Ico k (k + 2), ∑ j ∈ Ico k (k + 2), F i j k := by
    refine sum_comm' fun i k => ?_
    simp only [mem_Ico, mem_range]
    omega
  rw [hcells]
  refine sum_congr rfl fun k _ => ?_
  simp only [sum_Ico_eq_sum_range, Nat.add_sub_cancel_left]

/-- Pairs of neighbours in the plane with the cells that they share, when the second axis varies
slowest for nodes and fastest for neighbours. -/
theorem sum_planarPairs (F : Nat → Nat → Nat → Nat → Nat → Nat → K) {order : Nat}
    (horder : 0 < order) :
    ∑ iy ∈ range (order + 1), ∑ ix ∈ range (order + 1),
        ∑ jx ∈ Ico (ix - 1) (min (ix + 1) order + 1), ∑ jy ∈ Ico (iy - 1) (min (iy + 1) order + 1),
        ∑ ky ∈ Ico (max (iy - 1) (jy - 1)) (min (min iy jy) (order - 1) + 1),
        ∑ kx ∈ Ico (max (ix - 1) (jx - 1)) (min (min ix jx) (order - 1) + 1),
          F ix jx kx iy jy ky =
      ∑ ky ∈ range order, ∑ kx ∈ range order, ∑ c ∈ range 2, ∑ d ∈ range 2,
        ∑ a ∈ range 2, ∑ b ∈ range 2, F (kx + a) (kx + b) kx (ky + c) (ky + d) ky := by
  calc _ = ∑ iy ∈ range (order + 1), ∑ jy ∈ Ico (iy - 1) (min (iy + 1) order + 1),
        ∑ ky ∈ Ico (max (iy - 1) (jy - 1)) (min (min iy jy) (order - 1) + 1),
        ∑ ix ∈ range (order + 1), ∑ jx ∈ Ico (ix - 1) (min (ix + 1) order + 1),
        ∑ kx ∈ Ico (max (ix - 1) (jx - 1)) (min (min ix jx) (order - 1) + 1),
          F ix jx kx iy jy ky := by
        refine sum_congr rfl fun iy _ => ?_
        rw [sum_comm_pair]
        refine sum_congr rfl fun jy _ => ?_
        rw [sum_comm_pair]
    _ = ∑ ky ∈ range order, ∑ c ∈ range 2, ∑ d ∈ range 2, ∑ kx ∈ range order,
        ∑ a ∈ range 2, ∑ b ∈ range 2, F (kx + a) (kx + b) kx (ky + c) (ky + d) ky := by
        simp only [sum_pairs _ horder]
    _ = _ := by
        refine sum_congr rfl fun ky _ => ?_
        rw [sum_comm_pair]

theorem sample_add {α : Type} [Scalar α] {a q : Nat} (ha : a < 2) (hq : q < 2) (k : Nat) :
    (sample (k + a) k q : α × α) = (if a = q then 1 else 0, if a = 0 then -1 else 1) := by
  have hindex : sampleIndex (k + a) k q = (1 - a) * 2 + q := by
    rw [sampleIndex]
    congr 2
    omega
  rw [sample, hindex]
  interval_cases a <;> interval_cases q <;> simp [samples]

end Hat

end LowOrderRefinement
