import LowOrderRefinement.Proofs.ExactField
import LowOrderRefinement.Proofs.BoxMesh.MeshNumbering

/-! The sub-cells around a node. A node between the ends of every axis is a corner of one
sub-cell on each side, and sits in it at the opposite corner. What the sub-cells of a
mesh bring to such a node is therefore a sum over corners, whichever elements the
sub-cells belong to. -/

namespace LowOrderRefinement

open Finset

/-! ### Points of a box -/

namespace Lattice

def unshift (a b : List Nat) : List Nat := a.zipWith (· - ·) b

def interior : List Nat → List Nat → Bool
  | [], [] => true
  | i :: is, n :: ns => decide (0 < i ∧ i < n) && interior is ns
  | _, _ => false

theorem unshift_shift {cell corner : List Nat} (h : cell.length = corner.length) :
    unshift (shift cell corner) corner = cell := by
  induction cell generalizing corner with
  | nil => cases corner <;> rfl
  | cons k cell ih =>
    cases corner with
    | nil => cases h
    | cons c corner =>
      rw [shift, unshift, List.zipWith_cons_cons, List.zipWith_cons_cons, Nat.add_sub_cancel]
      exact congrArg (k :: ·) (ih (Nat.succ.inj h))

theorem pos_of_interior {point cells : List Nat} (h : interior point cells) :
    ∀ i ∈ point, 0 < i := by
  induction cells generalizing point with
  | nil => cases point <;> simp_all [interior]
  | cons n cells ih =>
    cases point with
    | nil => cases h
    | cons i point =>
      simp only [interior, Bool.and_eq_true, decide_eq_true_eq] at h
      exact List.forall_mem_cons.mpr ⟨h.1.1, ih h.2⟩

theorem inBox_unshift {point corner cells : List Nat} (h : interior point cells)
    (hcorner : IsCorner corner cells) : inBox (unshift point corner) cells := by
  induction cells generalizing point corner with
  | nil => cases point <;> simp_all [interior, unshift, inBox]
  | cons n cells ih =>
    cases point with
    | nil => cases h
    | cons i point =>
      cases corner with
      | nil => cases hcorner
      | cons c corner =>
        simp only [interior, Bool.and_eq_true, decide_eq_true_eq] at h
        simp only [IsCorner, List.map_cons, inBox, Bool.and_eq_true, decide_eq_true_eq] at hcorner
        simp only [unshift, List.zipWith_cons_cons, inBox, Bool.and_eq_true, decide_eq_true_eq]
        exact ⟨by omega, ih h.2 hcorner.2⟩

theorem shift_unshift {point corner cells : List Nat} (h : interior point cells)
    (hcorner : IsCorner corner cells) : shift (unshift point corner) corner = point := by
  induction cells generalizing point corner with
  | nil => cases point <;> cases corner <;> simp_all [interior, IsCorner, inBox, shift, unshift]
  | cons n cells ih =>
    cases point with
    | nil => cases h
    | cons i point =>
      cases corner with
      | nil => cases hcorner
      | cons c corner =>
        simp only [interior, Bool.and_eq_true, decide_eq_true_eq] at h
        simp only [IsCorner, List.map_cons, inBox, Bool.and_eq_true, decide_eq_true_eq] at hcorner
        have hi : i - c + c = i := by omega
        rw [unshift, shift, List.zipWith_cons_cons, List.zipWith_cons_cons, hi]
        exact congrArg (i :: ·) (ih h.2 hcorner.2)

/-- A node lies on no end of an axis exactly when it is interior. -/
theorem interior_iff {node cells : List Nat} (h : inBox node (nodeShape cells)) :
    interior node cells ↔
      (node.zip (nodeShape cells)).any (fun (c, n) => c = 0 ∨ c + 1 = n) = false := by
  induction cells generalizing node with
  | nil => cases node <;> simp_all [nodeShape, inBox, interior]
  | cons n cells ih =>
    cases node with
    | nil => cases h
    | cons i node =>
      simp only [nodeShape, List.map_cons, inBox, Bool.and_eq_true, decide_eq_true_eq] at h
      have hrest := ih h.2
      rw [nodeShape] at hrest
      rw [interior, nodeShape, List.map_cons, List.zip_cons_cons, List.any_cons,
        Bool.or_eq_false_iff, ← hrest, Bool.and_eq_true, decide_eq_true_iff, decide_eq_false_iff_not]
      refine and_congr_left fun _ => ?_
      omega

variable {K : Type} [ExactField K]

theorem sum_at_corner {point corner cells : List Nat} (h : interior point cells)
    (hcorner : IsCorner corner cells) (load : List Nat → K) :
    ∑ s ∈ range cells.prod,
        (if shift (unflatten s cells) corner = point then load (unflatten s cells) else 0) =
      load (unshift point corner) := by
  have hbox := inBox_unshift h hcorner
  rw [sum_eq_single_of_mem _ (mem_range.mpr (flatten_lt hbox))]
  · rw [unflatten_flatten hbox, if_pos (shift_unshift h hcorner)]
  · intro s hs hne
    rw [mem_range] at hs
    rw [if_neg]
    rintro rfl
    have hlength : (unflatten s cells).length = corner.length := by
      rw [length_unflatten, length_eq_of_inBox hcorner, List.length_map]
    exact hne (by rw [unshift_shift hlength, flatten_unflatten hs])

end Lattice

/-! ### Nodes of a mesh -/

namespace BoxMesh

variable {α : Type}

theorem notMem_boundary_iff (m : BoxMesh α) {n : Nat} (hn : n < m.positions.size) :
    n ∉ m.boundary ↔ Lattice.interior (Lattice.unflatten n m.lattice) m.cells := by
  have hbox := m.inBox_node (m.size_positions ▸ hn)
  rw [Lattice.interior_iff hbox, nodeShape_cells, boundary, List.mem_filter, List.mem_range,
    and_iff_right hn, Bool.not_eq_true]

theorem cornerDof_eq_iff (m : BoxMesh α) {s n : Nat} (hs : s < m.cells.prod)
    (hn : n < m.positions.size) {corner : List Nat} (hcorner : corner ∈ Shape.vertices m.dim) :
    m.refinement.cornerDof m.space m.dim s corner = n ↔
      Lattice.shift (m.cellCoordinates s) corner = Lattice.unflatten n m.lattice := by
  have hcorner := (Shape.mem_vertices_iff m.length_cells).mp hcorner
  rw [m.cornerDof_eq hs hcorner]
  constructor
  · rintro rfl
    exact (Lattice.unflatten_flatten (m.inBox_corner hs hcorner)).symm
  · intro h
    rw [h, Lattice.flatten_unflatten (m.size_positions ▸ hn)]

/-- What sub-cells bring to their corners adds up, at an interior node, to what the sub-cells on
each side of the node bring to the corner at which they have it. -/
theorem sum_corners {K : Type} [ExactField K] (m : BoxMesh K) {n : Nat}
    (hn : n < m.positions.size) (hboundary : n ∉ m.boundary) (load : List Nat → List Nat → K) :
    ∑ s ∈ range m.cells.prod, ((Shape.vertices m.dim).map fun v =>
        if m.refinement.cornerDof m.space m.dim s v = n then load (m.cellCoordinates s) v
        else 0).sum =
      ((Shape.vertices m.dim).map fun v =>
        load (Lattice.unshift (Lattice.unflatten n m.lattice) v) v).sum := by
  have hinterior := (m.notMem_boundary_iff hn).mp hboundary
  have hcoordinates : ∀ s ∈ range m.cells.prod, ((Shape.vertices m.dim).map fun v =>
        if m.refinement.cornerDof m.space m.dim s v = n then load (m.cellCoordinates s) v
        else 0).sum =
      ((Shape.vertices m.dim).map fun v =>
        if Lattice.shift (Lattice.unflatten s m.cells) v = Lattice.unflatten n m.lattice then
          load (Lattice.unflatten s m.cells) v else 0).sum := by
    intro s hs
    refine congrArg List.sum (List.map_congr_left fun v hv => ?_)
    exact if_congr (m.cornerDof_eq_iff (mem_range.mp hs) hn hv) rfl rfl
  rw [sum_congr rfl hcoordinates, ← sum_map_sum]
  refine congrArg List.sum (List.map_congr_left fun v hv => ?_)
  exact Lattice.sum_at_corner hinterior ((Shape.mem_vertices_iff m.length_cells).mp hv)
    fun cell => load cell v

end BoxMesh

end LowOrderRefinement
