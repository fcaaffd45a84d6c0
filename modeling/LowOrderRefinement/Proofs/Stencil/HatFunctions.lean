import Mathlib.Algebra.Order.Ring.Abs
import LowOrderRefinement.Cell.Shape
import LowOrderRefinement.Proofs.Stencil.Neighbourhoods

/-! Hat functions and the cells on which they meet. Two nodes share the cells of a row that are
adjacent to both of them, and nodes of the row share a cell exactly when they are neighbours,
that is at most one apart. The hat function of a node is one at the node and falls off linearly
to zero at the nodes beside it, so that it is a linear shape function on both cells there; its
samples on these cells are the values of the shape function at their ends and its slope. -/

namespace LowOrderRefinement

theorem Shape.value_eq {K : Type} [ExactField K] (a : Nat) (s t : K) :
    value a t = value a s + slope a * (t - s) := by
  unfold value slope
  split <;> ring

namespace Hat

/-! ### Shared cells -/

theorem sharedBoundsChecked_eq (i j : Nat) {order : Nat} (horder : 0 < order)
    (hlimit : order < Size.limit) :
    sharedBoundsChecked i j order = .ok (sharedBounds i j order) := by
  -- the last cell of the row is below its length, and so is every cell before it
  have hstop : min (min i (order - 1)) j + 1 < Size.limit := by omega
  simp only [sharedBoundsChecked, bind_eq_ok, require_eq_ok, Size.add_eq_ok, pure_eq_ok]
  exact ⟨(), by simpa using horder, _, ⟨hstop, rfl⟩, rfl⟩

theorem sharedCells_eq_range' (i j order : Nat) :
    sharedCells i j order = List.range' (sharedBounds i j order).1
      ((sharedBounds i j order).2 - (sharedBounds i j order).1) := rfl

theorem mem_sharedBounds {i j order c : Nat} :
    (sharedBounds i j order).1 ≤ c ∧ c < (sharedBounds i j order).2 ↔ c ∈ sharedCells i j order := by
  rw [sharedCells_eq_range', List.mem_range'_1]
  omega

theorem mem_sharedCells_iff_eq {i j order c : Nat} (horder : 0 < order) :
    c ∈ sharedCells i j order ↔ c < order ∧ (c = i ∨ c + 1 = i) ∧ (c = j ∨ c + 1 = j) := by
  rw [mem_sharedCells horder]
  omega

theorem exists_end {i j order c n : Nat} (horder : 0 < order) (hc : c ∈ sharedCells i j order)
    (hn : n ∈ [i, j]) : ∃ a < 2, n = c + a := by
  obtain ⟨-, hi, hj⟩ := (mem_sharedCells horder).mp hc
  have hadjacent : c ≤ n ∧ n ≤ c + 1 := by
    rcases List.mem_pair.mp hn with rfl | rfl
    · exact hi
    · exact hj
  exact ⟨n - c, by omega, by omega⟩

theorem sharedCells_ne_nil_iff {i j order : Nat} (horder : 0 < order) (hi : i ≤ order)
    (hj : j ≤ order) : sharedCells i j order ≠ [] ↔ |(i : ℤ) - j| ≤ 1 := by
  rw [sharedCells, sharedBounds, ne_eq, List.range'_eq_nil_iff, abs_le]
  omega

theorem neighbours_eq_filter {i order : Nat} (hi : i ≤ order) :
    neighbours i (order + 1) = (List.range (order + 1)).filter fun j : Nat =>
      |(i : ℤ) - j| ≤ 1 := by
  apply List.Pairwise.eq_of_mem_iff List.pairwise_lt_range' (List.pairwise_lt_range.filter _)
  intro j
  have hmem := mem_neighbours (j := j) (Nat.lt_succ_of_le hi)
  rw [neighbours] at hmem
  rw [hmem, List.mem_filter, List.mem_range, decide_eq_true_eq, abs_le]
  omega

/-! ### Samples -/

variable {K : Type} [ExactField K]

/-- The hat function of a node on a row of cells of length one. -/
def function (node : Nat) (x : K) : K := max 0 (1 - |x - node|)

/-- On the cells beside its node a hat function is a shape function. -/
theorem function_add {a : Nat} (ha : a < 2) (c : Nat) {t : K} (h0 : 0 ≤ t) (h1 : t ≤ 1) :
    function (c + a) (c + t) = Shape.value a t := by
  have hplace : (c : K) + t - (c + a : Nat) = t - a := by
    push_cast
    ring
  rw [function, hplace]
  interval_cases a
  · rw [Nat.cast_zero, sub_zero, abs_of_nonneg h0, max_eq_right (by linarith)]
    rfl
  · rw [Nat.cast_one, abs_of_nonpos (by linarith), max_eq_right (by linarith)]
    simp [Shape.value]

/-- The samples on a cell are the values of the shape functions at its ends, and their slopes. -/
theorem sample_eq_shape {a q : Nat} (ha : a < 2) (hq : q < 2) (c : Nat) :
    (sample (c + a) c q : K × K) = (Shape.value a (q : K), Shape.slope a) := by
  rw [sample_add ha hq, Shape.slope, Shape.value]
  interval_cases a <;> interval_cases q <;> simp

/-- In a row with a cell, the bounds of the cells shared by two nodes are computed without overflow,
whatever the nodes are. They bound the cells of the row that are adjacent to both nodes, in either
order of the nodes. Two nodes of the row share a cell exactly when they are at most one apart, and
these are the neighbours that are listed for a node. On a shared cell the samples of both hat
functions exist, and in any arithmetic they are one or zero with slope one or minus one: the value
and the slope of the linear shape function with which the hat function agrees on the cell. -/
theorem sharedCells_meet {order : Nat} (horder : 0 < order) (hlimit : order < Size.limit) :
    (∀ i j, ∃ first stop, sharedBoundsChecked i j order = .ok (first, stop) ∧
      sharedBoundsChecked j i order = .ok (first, stop) ∧
      sharedCells i j order = List.range' first (stop - first) ∧
      ∀ c, first ≤ c ∧ c < stop ↔ c < order ∧ (c = i ∨ c + 1 = i) ∧ (c = j ∨ c + 1 = j)) ∧
    (∀ i ≤ order, (∀ j ≤ order, sharedCells i j order ≠ [] ↔ |(i : ℤ) - j| ≤ 1) ∧
      neighbours i (order + 1) =
        (List.range (order + 1)).filter fun j : Nat => |(i : ℤ) - j| ≤ 1) ∧
    ∀ i j, ∀ c ∈ sharedCells i j order, ∀ n ∈ [i, j], ∀ q < 2,
      (∀ (α : Type) [Scalar α], sampleChecked n c q = .ok (sample n c q : α × α) ∧
        (sample n c q : α × α) = (if n = c + q then 1 else 0, if n = c then -1 else 1)) ∧
      ∀ (K : Type) [ExactField K],
        (sample n c q : K × K) = (Shape.value (n - c) (q : K), Shape.slope (n - c)) ∧
        ∀ t : K, (0 ≤ t → t ≤ 1 → function n (c + t) = Shape.value (n - c) t) ∧
          Shape.value (n - c) t = Shape.value (n - c) (q : K) + Shape.slope (n - c) * (t - q) := by
  refine ⟨fun i j => ?_, fun i hi => ⟨fun j hj => sharedCells_ne_nil_iff horder hi hj,
    neighbours_eq_filter hi⟩, fun i j c hc n hn q hq => ?_⟩
  · refine ⟨(sharedBounds i j order).1, (sharedBounds i j order).2,
      sharedBoundsChecked_eq i j horder hlimit, ?_, sharedCells_eq_range' i j order,
      fun c => mem_sharedBounds.trans (mem_sharedCells_iff_eq horder)⟩
    rw [sharedBoundsChecked_eq j i horder hlimit, sharedBounds_comm]
  · obtain ⟨hcell, -⟩ := (mem_sharedCells horder).mp hc
    obtain ⟨a, ha, rfl⟩ := exists_end horder hc hn
    have hnext : c + 1 < Size.limit := by omega
    rw [Nat.add_sub_cancel_left]
    constructor
    · intro α _
      refine ⟨sampleChecked_eq hnext (by omega) hq, ?_⟩
      simp only [sample_add ha hq, Nat.add_right_inj, Nat.add_eq_left]
    · intro K _
      exact ⟨sample_eq_shape ha hq c, fun t => ⟨function_add ha c, Shape.value_eq a (q : K) t⟩⟩

/-- In a row of four cells the last two nodes meet on the last cell, where the hat of one falls and
that of the other rises. The last node has no neighbour but the one before it, and nodes far beyond
the row share no cell. -/
theorem sharedCells_meet_lastCell :
    0 < 4 ∧ 4 < Size.limit ∧ neighbours 4 5 = [3, 4] ∧ 3 ∈ sharedCells 4 3 4 ∧
      sampleChecked 3 3 0 = .ok ((1, -1) : ℚ × ℚ) ∧ sampleChecked 4 3 0 = .ok ((0, 1) : ℚ × ℚ) ∧
      function 4 (3 + 1 / 2 : ℚ) = 1 / 2 ∧
      ∃ first stop, sharedBoundsChecked (2 ^ 64 - 1) (2 ^ 64 - 1) 4 = .ok (first, stop) ∧
        ∀ c, ¬ (first ≤ c ∧ c < stop) := by
  obtain ⟨hbounds, hrow, hsamples⟩ := @sharedCells_meet 4 (by decide) (by decide)
  obtain ⟨first, stop, hfar, -, -, hcells⟩ := hbounds (2 ^ 64 - 1) (2 ^ 64 - 1)
  have hshared : 3 ∈ sharedCells 4 3 4 := by decide
  obtain ⟨hfall, -⟩ := hsamples 4 3 3 hshared 3 (by decide) 0 (by decide)
  obtain ⟨hrise, hexact⟩ := hsamples 4 3 3 hshared 4 (by decide) 0 (by decide)
  refine ⟨by decide, by decide, (hrow 4 (by decide)).2.trans (by decide), hshared,
    (hfall ℚ).1.trans (by rw [(hfall ℚ).2]; rfl), (hrise ℚ).1.trans (by rw [(hrise ℚ).2]; rfl),
    ?_, first, stop, hfar, fun c hc => ?_⟩
  · have hhalf := ((hexact ℚ).2 (1 / 2)).1 (by norm_num) (by norm_num)
    simpa [Shape.value] using hhalf
  · have hfew := (hcells c).mp hc
    omega

end Hat

end LowOrderRefinement
