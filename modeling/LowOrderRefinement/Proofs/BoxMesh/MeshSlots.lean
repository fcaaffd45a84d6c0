import LowOrderRefinement.Proofs.BoxMesh.ElementNodes
import LowOrderRefinement.Proofs.BoxMesh.MeshPattern
import LowOrderRefinement.Proofs.Slots.Offsets
import LowOrderRefinement.Proofs.Slots.SlotTable

/-! The slots of a box mesh. A sub-cell is numbered along the lattice of all sub-cells; its
element and its place in the grid of the element are the quotients and the remainders of its
coordinates by the order. An element `e` and a place `k` belong to the sub-cell with the
coordinates `p e + k`, and this is the sub-cell that inverting the embeddings finds in their
slot, for boxes of any extents. -/

namespace LowOrderRefinement

/-! ### Places in a grid -/

namespace Lattice

/-- A cell from its element and its place in the grid of the element. -/
theorem shift_mod_mul_div (cell : List Nat) (order : Nat) :
    shift (cell.map (· % order)) ((cell.map (· / order)).map (· * order)) = cell := by
  induction cell with
  | nil => rfl
  | cons k cell ih =>
    simp only [shift, List.map_cons, List.zipWith_cons_cons, Nat.mod_add_div']
    exact congrArg (k :: ·) ih

end Lattice

namespace BoxMesh

variable {α : Type} (m : BoxMesh α)

/-! ### Sub-cells by element and place -/

theorem places_lt : m.order ^ m.dim.value < Size.limit :=
  Size.lt_limit_of_le ((Nat.pow_le_pow_left (Nat.le_succ _) _).trans m.order_fit)

theorem allPlaces_lt : m.elements.prod * m.order ^ m.dim.value < Size.limit := by
  rw [← m.covers.subcells_eq]
  refine Size.lt_limit_of_le (le_trans ?_ m.nodes_fit)
  show (m.elements.map (· * m.order)).prod ≤ (m.elements.map fun n => n * m.order + 1).prod
  exact List.prod_le_prod' fun n _ => Nat.le_succ _

variable {m} {s : Nat}

theorem inBox_element (hs : s < m.cells.prod) :
    Lattice.inBox (Lattice.unflatten (m.embedding s).parent m.elements) m.elements := by
  rw [unflatten_parent m hs]
  exact Lattice.inBox_div m.order_pos (m.inBox_cellCoordinates hs)

theorem inBox_gridCoordinates (m : BoxMesh α) (s : Nat) :
    Lattice.inBox ((m.embedding s).gridCoordinates m.order m.dim)
      (List.replicate m.dim.value m.order) := by
  rw [Embedding.gridCoordinates, unflatten_offset]
  exact m.inBox_offset s

/-- The coordinates of a sub-cell are recovered from its element and its place. -/
theorem shift_gridCoordinates (hs : s < m.cells.prod) :
    Lattice.shift ((m.embedding s).gridCoordinates m.order m.dim)
        ((Lattice.unflatten (m.embedding s).parent m.elements).map (· * m.order)) =
      m.cellCoordinates s := by
  rw [Embedding.gridCoordinates, unflatten_offset, unflatten_parent m hs,
    Lattice.shift_mod_mul_div]

/-- Inverting the embeddings of a box mesh always succeeds, also when the box is empty. The slot of
an element `e` and a place `k` of its grid holds the sub-cell with coordinates `p e + k`, where `p`
is the order. The embedding is a bijection from the sub-cells onto the slots; it divides the
coordinates of a sub-cell by `p`, with quotients `e` and remainders `k`, and `p e + k` undoes
that. -/
theorem slots_cells (m : BoxMesh α) :
    let grid := List.replicate m.dim.value m.order
    (∃ table, m.refinement.slots m.dim m.order m.elements.prod = .ok table ∧
      table.size = m.elements.prod * m.order ^ m.dim.value ∧
      ∀ e k, Lattice.inBox e m.elements → Lattice.inBox k grid → ∃ s < m.cells.prod,
        m.cellCoordinates s = Lattice.shift k (e.map (· * m.order)) ∧
        Embedding.ofCoordinates (Lattice.flatten e m.elements) m.order k = .ok (m.embedding s) ∧
        table[Lattice.flatten k grid + m.order ^ m.dim.value * Lattice.flatten e m.elements]? =
          some s) ∧
    Set.BijOn m.embedding (Set.Iio m.cells.prod)
      {place | place.parent < m.elements.prod ∧ place.offset < m.order ^ m.dim.value} ∧
    ∀ s < m.cells.prod,
      let e := Lattice.unflatten (m.embedding s).parent m.elements
      let k := (m.embedding s).gridCoordinates m.order m.dim
      e = (m.cellCoordinates s).map (· / m.order) ∧ k = (m.cellCoordinates s).map (· % m.order) ∧
        Lattice.inBox e m.elements ∧ Lattice.inBox k grid ∧
        Lattice.shift k (e.map (· * m.order)) = m.cellCoordinates s := by
  intro grid
  refine ⟨?_, (Refinement.covers_iff.mp m.covers).2, fun s hs => ?_⟩
  · obtain ⟨table, htable⟩ :=
      (Refinement.exists_slots_iff m.places_lt m.allPlaces_lt).mpr m.covers
    have hslotted := Refinement.slots_spec htable
    refine ⟨table, htable, hslotted.size_table, fun e k he hk => ?_⟩
    have hplace := embedding_cellAt he hk
    refine ⟨m.cellAt e k, cellAt_lt he hk, cellCoordinates_cellAt he hk, ?_, ?_⟩
    · rw [Embedding.ofCoordinates_eq _ hk m.places_lt, hplace]
    · have hslot := hslotted.getElem_slotOf _ (cellAt_lt he hk)
      change table[Refinement.slotOf _ (m.embedding _)]? = _ at hslot
      rwa [hplace] at hslot
  · exact ⟨unflatten_parent m hs, unflatten_offset m s, inBox_element hs, m.inBox_gridCoordinates s,
      shift_gridCoordinates hs⟩

/-- Of two cubes of order two, the place `[1, 0, 1]` of the second one belongs to the sub-cell at
`[3, 0, 1]`, which has the number 11. An empty strip has no slots. -/
theorem slots_cells_cubes :
    (Lattice.inBox [1, 0, 0] quadraticCubes.elements ∧ Lattice.inBox [1, 0, 1] [2, 2, 2] ∧
      ∃ table, quadraticCubes.refinement.slots .three 2 2 = .ok table ∧ table.size = 16 ∧
        quadraticCubes.cellCoordinates 11 = [3, 0, 1] ∧ table[13]? = some 11) ∧
    ∃ table, emptyStrip.refinement.slots .two 1 0 = .ok table ∧ table.size = 0 := by
  obtain ⟨⟨table, htable, hsize, hslots⟩, -⟩ := slots_cells quadraticCubes
  obtain ⟨⟨empty, hempty, hnone, -⟩, -⟩ := slots_cells emptyStrip
  obtain ⟨s, hs, hcell, -, hget⟩ := hslots [1, 0, 0] [1, 0, 1] rfl rfl
  have hnumber : s = 11 := by
    have hflat := Lattice.flatten_unflatten hs
    rw [show Lattice.unflatten s quadraticCubes.cells = [3, 0, 1] from hcell] at hflat
    exact hflat.symm
  exact ⟨⟨rfl, rfl, table, htable, hsize, rfl, hnumber ▸ hget⟩, empty, hempty, hnone⟩

end BoxMesh

end LowOrderRefinement
