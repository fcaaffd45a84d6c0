import LowOrderRefinement.Proofs.BoxMesh.ElementNodes
import LowOrderRefinement.Proofs.BoxMesh.Incidence

/-! The boundary of a box mesh by counting. Along each axis a node ends one cell or two, and
the sub-cells around a node take one of these cells along every axis, each choice once.
A node between the ends of all axes therefore has as many sub-cells around it as a
sub-cell has vertices, and every other node has fewer. -/

namespace LowOrderRefinement

open Finset

namespace Lattice

/-! ### Cells around a point -/

/-- The cells along an axis of `n` cells that node `c` is an end of. -/
def sides (c n : Nat) : Finset Nat := Ico (c - 1) (min (c + 1) n)

theorem mem_sides {k c n : Nat} : k ∈ sides c n ↔ k < n ∧ (k = c ∨ k + 1 = c) := by
  rw [sides, mem_Ico]
  omega

theorem card_sides_le (c n : Nat) : #(sides c n) ≤ 2 := by
  rw [sides, Nat.card_Ico]
  omega

theorem card_sides_eq_two {c n : Nat} (h : c ≤ n) : #(sides c n) = 2 ↔ 0 < c ∧ c < n := by
  rw [sides, Nat.card_Ico]
  omega

def touches : List Nat → List Nat → Bool
  | [], [] => true
  | k :: cell, c :: node => decide (k = c ∨ k + 1 = c) && touches cell node
  | _, _ => false

/-- A node is an end of a cell along every axis when it is one of the corners of the cell. -/
theorem touches_iff {cell node cells : List Nat} (h : cell.length = cells.length) :
    touches cell node ↔ ∃ corner, IsCorner corner cells ∧ shift cell corner = node := by
  induction cells generalizing cell node with
  | nil =>
    obtain rfl := List.length_eq_zero_iff.mp h
    cases node with
    | nil => exact iff_of_true rfl ⟨[], rfl, rfl⟩
    | cons c node => simp [touches, shift]
  | cons n cells ih =>
    obtain ⟨k, cell, rfl⟩ := List.exists_cons_of_length_eq_add_one h
    cases node with
    | nil =>
      simp only [touches, Bool.false_eq_true, false_iff]
      rintro ⟨corner, hcorner, hshift⟩
      cases corner with
      | nil => cases hcorner
      | cons c corner => cases hshift
    | cons c node =>
      rw [touches, Bool.and_eq_true, decide_eq_true_eq, ih (Nat.succ.inj h)]
      constructor
      · rintro ⟨hend, corner, hcorner, rfl⟩
        refine ⟨(c - k) :: corner, ?_, ?_⟩
        · simp only [IsCorner, List.map_cons, inBox, Bool.and_eq_true, decide_eq_true_eq]
          exact ⟨by omega, hcorner⟩
        · rw [shift, List.zipWith_cons_cons, show k + (c - k) = c by omega]
          rfl
      · rintro ⟨corner, hcorner, hshift⟩
        cases corner with
        | nil => cases hcorner
        | cons d corner =>
          simp only [IsCorner, List.map_cons, inBox, Bool.and_eq_true, decide_eq_true_eq] at hcorner
          rw [shift, List.zipWith_cons_cons] at hshift
          obtain ⟨rfl, hrest⟩ := List.cons.inj hshift
          exact ⟨by omega, corner, hcorner.2, hrest⟩

/-- The cells at a node are counted axis by axis. -/
theorem card_touching {node cells : List Nat} (h : node.length = cells.length) :
    #{s ∈ range cells.prod | touches (unflatten s cells) node} =
      (node.zipWith (fun c n => #(sides c n)) cells).prod := by
  induction cells generalizing node with
  | nil =>
    obtain rfl := List.length_eq_zero_iff.mp h
    rfl
  | cons n cells ih =>
    obtain ⟨c, node, rfl⟩ := List.exists_cons_of_length_eq_add_one h
    rw [List.zipWith_cons_cons, List.prod_cons, List.prod_cons, ← ih (Nat.succ.inj h),
      ← card_product]
    have hdiv {k t : Nat} (hk : k < n) : (k + n * t) / n = t := by
      rw [Nat.add_comm, Nat.mul_comm, place_div hk]
    have hmod {k t : Nat} (hk : k < n) : (k + n * t) % n = k := by
      rw [Nat.add_mul_mod_self_left, Nat.mod_eq_of_lt hk]
    -- a cell is its place along the first axis and a cell of the other axes
    refine card_nbij' (fun s => (s % n, s / n)) (fun p => p.1 + n * p.2) ?_ ?_ ?_ ?_
    · intro s hs
      simp only [coe_filter, mem_range, Set.mem_ofPred_eq, unflatten, touches,
        Bool.and_eq_true, decide_eq_true_eq] at hs
      obtain ⟨hlt, hend, hrest⟩ := hs
      have hn : 0 < n := Nat.pos_of_mul_pos_right (Nat.zero_lt_of_lt hlt)
      simp only [coe_product, Set.mem_prod, mem_coe, mem_sides, mem_filter, mem_range]
      exact ⟨⟨Nat.mod_lt s hn, hend⟩, Nat.div_lt_of_lt_mul hlt, hrest⟩
    · rintro ⟨k, t⟩ hp
      simp only [coe_product, Set.mem_prod, mem_coe, mem_sides, mem_filter, mem_range] at hp
      obtain ⟨⟨hk, hend⟩, ht, hrest⟩ := hp
      have hplace : k + n * t < n * cells.prod := by
        rw [Nat.add_comm, Nat.mul_comm, Nat.mul_comm n]
        exact place_lt ht hk
      simp only [coe_filter, mem_range, Set.mem_ofPred_eq, unflatten, touches,
        Bool.and_eq_true, decide_eq_true_eq, hdiv hk, hmod hk]
      exact ⟨hplace, hend, hrest⟩
    · intro s _
      exact Nat.mod_add_div s n
    · rintro ⟨k, t⟩ hp
      simp only [coe_product, Set.mem_prod, mem_coe, mem_sides] at hp
      exact Prod.ext (hmod hp.1.1) (hdiv hp.1.1)

theorem prod_sides_le {node cells : List Nat} (h : node.length = cells.length) :
    (node.zipWith (fun c n => #(sides c n)) cells).prod ≤ 2 ^ cells.length := by
  induction cells generalizing node with
  | nil =>
    obtain rfl := List.length_eq_zero_iff.mp h
    rfl
  | cons n cells ih =>
    obtain ⟨c, node, rfl⟩ := List.exists_cons_of_length_eq_add_one h
    rw [List.zipWith_cons_cons, List.prod_cons, List.length_cons, pow_succ']
    exact Nat.mul_le_mul (card_sides_le c n) (ih (Nat.succ.inj h))

/-- All choices of a cell along every axis are there exactly for interior nodes. -/
theorem prod_sides_eq_iff {node cells : List Nat} (h : inBox node (nodeShape cells)) :
    (node.zipWith (fun c n => #(sides c n)) cells).prod = 2 ^ cells.length ↔
      interior node cells := by
  induction cells generalizing node with
  | nil =>
    obtain rfl := List.length_eq_zero_iff.mp (length_eq_of_inBox h)
    simp [interior]
  | cons n cells ih =>
    obtain ⟨c, node, rfl⟩ := List.exists_cons_of_length_eq_add_one (length_eq_of_inBox h)
    simp only [nodeShape, List.map_cons, inBox, Bool.and_eq_true, decide_eq_true_eq] at h
    have hlength : node.length = cells.length := by
      simpa [nodeShape] using length_eq_of_inBox h.2
    -- two factors that are both at most as large as can be reach the product only together
    have hrest := prod_sides_le hlength
    have hpos : 0 < 2 ^ cells.length := Nat.two_pow_pos _
    have hprod (a b : Nat) (ha : a ≤ 2) (hb : b ≤ 2 ^ cells.length) :
        a * b = 2 * 2 ^ cells.length ↔ a = 2 ∧ b = 2 ^ cells.length := by
      interval_cases a <;> omega
    rw [List.zipWith_cons_cons, List.prod_cons, List.length_cons, pow_succ',
      hprod _ _ (card_sides_le c n) hrest, card_sides_eq_two (Nat.le_of_lt_succ h.1), ih h.2,
      interior, Bool.and_eq_true, decide_eq_true_eq]

end Lattice

namespace BoxMesh

variable {α : Type} (m : BoxMesh α)

/-! ### Sub-cells around a node -/

def cellsAround (node : Nat) : Finset Nat := {s ∈ range m.cells.prod | node ∈ m.subcellNodes s}

theorem mem_subcellNodes_iff {s node : Nat} (hs : s < m.cells.prod)
    (hnode : node < m.positions.size) :
    node ∈ m.subcellNodes s ↔
      Lattice.touches (m.cellCoordinates s) (Lattice.unflatten node m.lattice) := by
  have hlength : (m.cellCoordinates s).length = m.cells.length := Lattice.length_unflatten _ _
  rw [m.subcellNodes_eq hs, List.mem_map, Lattice.touches_iff hlength]
  refine exists_congr fun v => ?_
  rw [← Shape.mem_vertices_iff m.length_cells]
  exact and_congr_right fun hv => m.cornerDof_eq_iff hs hnode hv

theorem length_unflatten_lattice (node : Nat) :
    (Lattice.unflatten node m.lattice).length = m.cells.length := by
  rw [Lattice.length_unflatten, ← m.nodeShape_cells, Lattice.nodeShape, List.length_map]

theorem card_cellsAround {node : Nat} (hnode : node < m.positions.size) :
    #(m.cellsAround node) = ((Lattice.unflatten node m.lattice).zipWith
      (fun c n => #(Lattice.sides c n)) m.cells).prod := by
  rw [← Lattice.card_touching (m.length_unflatten_lattice node), cellsAround]
  exact congrArg card (filter_congr fun s hs => m.mem_subcellNodes_iff (mem_range.mp hs) hnode)

theorem card_cellsAround_le {node : Nat} (hnode : node < m.positions.size) :
    #(m.cellsAround node) ≤ 2 ^ m.dim.value := by
  rw [m.card_cellsAround hnode, ← m.length_cells]
  exact Lattice.prod_sides_le (m.length_unflatten_lattice node)

/-- A node that is not on the boundary has as many sub-cells around it as a sub-cell has vertices,
and no other node has. -/
theorem card_cellsAround_eq_iff {node : Nat} (hnode : node < m.positions.size) :
    #(m.cellsAround node) = 2 ^ m.dim.value ↔ node ∉ m.boundary := by
  rw [m.card_cellsAround hnode, ← m.length_cells, m.notMem_boundary_iff hnode]
  exact Lattice.prod_sides_eq_iff (m.inBox_node (m.size_positions ▸ hnode))

/-- The boundary is strictly increasing and lists the nodes that fewer sub-cells have among their
own than a sub-cell has vertices. -/
theorem boundary_by_incidence :
    m.boundary.Pairwise (· < ·) ∧
    ∀ node, node ∈ m.boundary ↔ node < m.positions.size ∧
      #{s ∈ range m.cells.prod | node ∈ m.subcellNodes s} < 2 ^ m.dim.value := by
  refine ⟨List.pairwise_lt_range.filter _, fun node => ?_⟩
  constructor
  · intro h
    have hnode := List.mem_range.mp (List.mem_filter.mp h).1
    refine ⟨hnode, lt_of_le_of_ne (m.card_cellsAround_le hnode) fun hall => ?_⟩
    exact (m.card_cellsAround_eq_iff hnode).mp hall h
  · rintro ⟨hnode, hfew⟩
    by_contra h
    exact (Nat.ne_of_lt hfew) ((m.card_cellsAround_eq_iff hnode).mpr h)

/-- Two cubes of order two have three nodes off the boundary, in a row along the first axis. -/
example : (List.range 45).filter (· ∉ quadraticCubes.boundary) = [21, 22, 23] := by decide

end BoxMesh

end LowOrderRefinement
