import LowOrderRefinement.Kernel
import LowOrderRefinement.Proofs.BoxMesh.Connectivity
import LowOrderRefinement.Proofs.Stencil.ElementEnergy
import LowOrderRefinement.Proofs.Execution.Traversal

/-! Which nodes of an element are coupled. Two nodes of a row are neighbours exactly when
they are ends of a common cell, so that both kernels contribute to the pairs of
corners of a common sub-cell and to no others. On the way to these contributions
they read nothing outside of the arrays that they are given. -/

namespace LowOrderRefinement

/-! ### Rows of nodes -/

namespace Hat

theorem sharedBounds_comm (i j order : Nat) : sharedBounds i j order = sharedBounds j i order := by
  have hstop : min (min i (order - 1)) j = min (min j (order - 1)) i := by omega
  rw [sharedBounds, sharedBounds, Nat.max_comm (i - 1), hstop]

theorem sharedCells_comm (i j order : Nat) : sharedCells i j order = sharedCells j i order := by
  rw [sharedCells, sharedCells, sharedBounds_comm]

theorem mem_sharedCells {i j order c : Nat} (horder : 0 < order) :
    c ∈ sharedCells i j order ↔ c < order ∧ (c ≤ i ∧ i ≤ c + 1) ∧ c ≤ j ∧ j ≤ c + 1 := by
  rw [sharedCells, sharedBounds, List.mem_range'_1]
  omega

theorem mem_neighbours {i j nodes : Nat} (hi : i < nodes) :
    j ∈ neighbours i nodes ↔ j < nodes ∧ i ≤ j + 1 ∧ j ≤ i + 1 := by
  rw [neighbours, List.mem_range'_1]
  omega

/-- Two nodes of a row are ends of a common cell exactly when they are at most one apart. -/
theorem exists_ends_iff {i j order : Nat} (horder : 0 < order) :
    (∃ c < order, ∃ a < 2, ∃ b < 2, i = c + a ∧ j = c + b) ↔
      i < order + 1 ∧ j < order + 1 ∧ i ≤ j + 1 ∧ j ≤ i + 1 := by
  constructor
  · rintro ⟨c, hc, a, ha, b, hb, rfl, rfl⟩
    omega
  · rintro ⟨hi, hj, hij, hji⟩
    -- the cell left of both nodes, unless that is the end of the row
    refine ⟨min (min i j) (order - 1), by omega, i - min (min i j) (order - 1), by omega,
      j - min (min i j) (order - 1), by omega, by omega, by omega⟩

theorem mem_neighbours_iff_ends {i j order : Nat} (horder : 0 < order) (hi : i < order + 1) :
    j ∈ neighbours i (order + 1) ↔
      ∃ c < order, ∃ a < 2, ∃ b < 2, i = c + a ∧ j = c + b := by
  rw [mem_neighbours hi, exists_ends_iff horder, and_iff_right hi]

theorem sampleChecked_eq {α : Type} [Scalar α] {node cell q : Nat}
    (hcell : cell + 1 < Size.limit) (hadjacent : cell ≤ node ∧ node ≤ cell + 1) (hq : q < 2) :
    sampleChecked node cell q = .ok (sample node cell q : α × α) := by
  have hindex : sampleIndex node cell q < (samples : List (α × α)).length := by
    show (cell + 1 - node) * 2 + q < 4
    omega
  simp only [sampleChecked, bind_eq_ok, Size.add_eq_ok, require_eq_ok, pure_eq_ok]
  exact ⟨cell + 1, ⟨hcell, rfl⟩, (), by simp [hadjacent], (), by simpa using hindex, rfl⟩

end Hat

theorem Lattice.exists_lt_mul {rows length : Nat} {p : Nat → Prop} :
    (∃ k < rows * length, p k) ↔ ∃ row < rows, ∃ col < length, p (row * length + col) := by
  constructor
  · rintro ⟨k, hk, hp⟩
    have hlength : 0 < length := Nat.pos_of_mul_pos_left (Nat.zero_lt_of_lt hk)
    exact ⟨k / length, (Nat.div_lt_iff_lt_mul hlength).mpr hk, k % length,
      Nat.mod_lt k hlength, by rwa [Nat.div_add_mod']⟩
  · rintro ⟨row, hrow, col, hcol, hp⟩
    exact ⟨row * length + col, place_lt hrow hcol, hp⟩

namespace Shape

theorem exists_mem_vertices_two {p : List Nat → Prop} :
    (∃ v ∈ vertices .two, p v) ↔ ∃ a < 2, ∃ b < 2, p [a, b] := by
  constructor
  · rintro ⟨v, hv, hp⟩
    obtain ⟨⟨a, b⟩, hab, rfl⟩ := List.mem_map.mp hv
    have hlt : ∀ q ∈ squareVertices, q.1 < 2 ∧ q.2 < 2 := by decide
    exact ⟨a, (hlt _ hab).1, b, (hlt _ hab).2, hp⟩
  · rintro ⟨a, ha, b, hb, hp⟩
    have hcorner : Lattice.IsCorner [a, b] [1, 1] := by
      simp [Lattice.IsCorner, Lattice.inBox, ha, hb]
    exact ⟨[a, b], (mem_vertices_iff rfl).mpr hcorner, hp⟩

end Shape

variable {α : Type}

/-! ### Planar elements -/

namespace Stencil.Planar

theorem mem_nodes {order : Nat} {n : Node} :
    n ∈ nodes order ↔ n.x < order + 1 ∧ n.y < order + 1 := by
  simp only [nodes, List.mem_flatMap, List.mem_map, List.mem_range]
  constructor
  · rintro ⟨y, hy, x, hx, rfl⟩
    exact ⟨hx, hy⟩
  · rintro ⟨hx, hy⟩
    exact ⟨n.y, hy, n.x, hx, rfl⟩

theorem mem_coupled {order : Nat} {i j : Node} :
    j ∈ neighbours order i ↔
      j.x ∈ Hat.neighbours i.x (order + 1) ∧ j.y ∈ Hat.neighbours i.y (order + 1) := by
  simp only [neighbours, List.mem_flatMap, List.mem_map]
  constructor
  · rintro ⟨x, hx, y, hy, rfl⟩
    exact ⟨hx, hy⟩
  · rintro ⟨hx, hy⟩
    exact ⟨j.x, hx, j.y, hy, rfl⟩

theorem mem_support {order : Nat} {i j : Node} {s : Sample} :
    s ∈ support order i j ↔
      s.kx ∈ Hat.sharedCells i.x j.x order ∧ s.ky ∈ Hat.sharedCells i.y j.y order ∧
        s.qx < 2 ∧ s.qy < 2 := by
  have htwo (q : Nat) : q = 0 ∨ q = 1 ↔ q < 2 := by omega
  simp only [support, List.mem_flatMap, List.mem_map, List.mem_cons, List.not_mem_nil, or_false,
    htwo]
  constructor
  · rintro ⟨ky, hky, kx, hkx, qy, hqy, qx, hqx, rfl⟩
    exact ⟨hkx, hky, hqx, hqy⟩
  · rintro ⟨hkx, hky, hqx, hqy⟩
    exact ⟨s.ky, hky, s.kx, hkx, s.qy, hqy, s.qx, hqx, rfl⟩

theorem number_lt {order : Nat} {n : Node} (h : n ∈ nodes order) :
    n.number order < (order + 1) ^ 2 := by
  obtain ⟨hx, hy⟩ := mem_nodes.mp h
  rw [Node.number, Nat.add_comm, pow_two]
  exact Lattice.place_lt hy hx

theorem mem_nodes_of_coupled {order : Nat} {i j : Node} (hi : i ∈ nodes order)
    (hj : j ∈ neighbours order i) : j ∈ nodes order := by
  obtain ⟨hix, hiy⟩ := mem_nodes.mp hi
  obtain ⟨hx, hy⟩ := mem_coupled.mp hj
  exact mem_nodes.mpr ⟨((Hat.mem_neighbours hix).mp hx).1, ((Hat.mem_neighbours hiy).mp hy).1⟩

/-- The contributions of a planar element go to the pairs of corners of a common sub-cell. -/
theorem exists_mem_triplets [Scalar α] {order : Nat} (horder : 0 < order)
    (metric : Nat → Nat → Sym2 α) {m n : Nat} :
    (∃ t ∈ triplets order metric, t.row = m ∧ t.col = n) ↔
      ∃ k < order ^ 2, ∃ v ∈ Shape.vertices .two, ∃ w ∈ Shape.vertices .two,
        Kernel.cornerNode .two order k v = m ∧ Kernel.cornerNode .two order k w = n := by
  simp only [triplets, List.mem_flatMap, List.mem_map, pow_two, Lattice.exists_lt_mul,
    Shape.exists_mem_vertices_two]
  constructor
  · rintro ⟨t, ⟨i, hi, j, hj, rfl⟩, rfl, rfl⟩
    obtain ⟨hix, hiy⟩ := mem_nodes.mp hi
    obtain ⟨hjx, hjy⟩ := mem_coupled.mp hj
    obtain ⟨kx, hkx, a, ha, b, hb, hxi, hxj⟩ := (Hat.mem_neighbours_iff_ends horder hix).mp hjx
    obtain ⟨ky, hky, c, hc, d, hd, hyi, hyj⟩ := (Hat.mem_neighbours_iff_ends horder hiy).mp hjy
    refine ⟨ky, hky, kx, hkx, a, ha, c, hc, b, hb, d, hd, ?_, ?_⟩
    · rw [cornerNode_eq hkx hky, ← hxi, ← hyi]
      rfl
    · rw [cornerNode_eq hkx hky, ← hxj, ← hyj]
      rfl
  · rintro ⟨ky, hky, kx, hkx, a, ha, c, hc, b, hb, d, hd, rfl, rfl⟩
    have hix : kx + a < order + 1 := by omega
    have hiy : ky + c < order + 1 := by omega
    have hx := (Hat.mem_neighbours_iff_ends horder hix).mpr ⟨kx, hkx, a, ha, b, hb, rfl, rfl⟩
    have hy := (Hat.mem_neighbours_iff_ends horder hiy).mpr ⟨ky, hky, c, hc, d, hd, rfl, rfl⟩
    refine ⟨_, ⟨⟨kx + a, ky + c⟩, mem_nodes.mpr ⟨hix, hiy⟩, ⟨kx + b, ky + d⟩,
      mem_coupled.mpr ⟨hx, hy⟩, rfl⟩, ?_, ?_⟩
    · exact (cornerNode_eq hkx hky a c).symm
    · exact (cornerNode_eq hkx hky b d).symm

/-- Whatever the kernel of a planar element reads is there: the places of its nodes, the terms of
the sub-cells between them and the samples of their hat functions. -/
def ReadsInside [Scalar α] (order : Nat) (terms : Array α) (ordering : Array Nat) : Prop :=
  ∀ i ∈ nodes order, i.number order < ordering.size ∧
    ∀ j ∈ neighbours order i, j.number order < ordering.size ∧
      ∀ s ∈ support order i j, 3 * (s.point + 4 * s.cell order) + 3 ≤ terms.size ∧
        ∀ n ∈ [i, j], (∃ x : α × α, Hat.sampleChecked n.x s.kx s.qx = .ok x) ∧
          ∃ x : α × α, Hat.sampleChecked n.y s.ky s.qy = .ok x

theorem readsInside [Scalar α] {order : Nat} (horder : 0 < order) (hlimit : order < Size.limit)
    {terms : Array α} {ordering : Array Nat} (hterms : terms.size = 12 * order ^ 2)
    (hordering : ordering.size = (order + 1) ^ 2) : ReadsInside order terms ordering := by
  intro i hi
  refine ⟨hordering ▸ number_lt hi, fun j hj =>
    ⟨hordering ▸ number_lt (mem_nodes_of_coupled hi hj), fun s hs => ?_⟩⟩
  obtain ⟨hkx, hky, hqx, hqy⟩ := mem_support.mp hs
  obtain ⟨hkx, hix, hjx⟩ := (Hat.mem_sharedCells horder).mp hkx
  obtain ⟨hky, hiy, hjy⟩ := (Hat.mem_sharedCells horder).mp hky
  constructor
  · have hcell : s.cell order < order ^ 2 := by
      rw [Sample.cell, Nat.add_comm, pow_two]
      exact Lattice.place_lt hky hkx
    rw [hterms, Sample.point]
    omega
  · intro n hn
    have hadjacent : (s.kx ≤ n.x ∧ n.x ≤ s.kx + 1) ∧ s.ky ≤ n.y ∧ n.y ≤ s.ky + 1 := by
      rcases List.mem_pair.mp hn with rfl | rfl
      · exact ⟨hix, hiy⟩
      · exact ⟨hjx, hjy⟩
    exact ⟨⟨_, Hat.sampleChecked_eq (by omega) hadjacent.1 hqx⟩,
      ⟨_, Hat.sampleChecked_eq (by omega) hadjacent.2 hqy⟩⟩

end Stencil.Planar

/-! ### Spatial elements -/

namespace Stencil.Solid

theorem mem_cells {order : Nat} {k : Cell} :
    k ∈ cells order ↔ k.x < order ∧ k.y < order ∧ k.z < order := by
  simp only [cells, List.mem_flatMap, List.mem_map, List.mem_range]
  constructor
  · rintro ⟨z, hz, y, hy, x, hx, rfl⟩
    exact ⟨hx, hy, hz⟩
  · rintro ⟨hx, hy, hz⟩
    exact ⟨k.z, hz, k.y, hy, k.x, hx, rfl⟩

theorem number_eq (order : Nat) (k : Cell) :
    k.number order = (k.z * order + k.y) * order + k.x := by
  rw [Cell.number]
  ring

theorem number_lt {order : Nat} {k : Cell} (hk : k ∈ cells order) :
    k.number order < order ^ 3 := by
  obtain ⟨hx, hy, hz⟩ := mem_cells.mp hk
  rw [number_eq, pow_succ, pow_two]
  exact Lattice.place_lt (Lattice.place_lt hz hy) hx

theorem mem_corners {c : Corner} : c ∈ corners ↔ c.x < 2 ∧ c.y < 2 ∧ c.z < 2 := by
  simp only [corners, List.mem_map, List.mem_range]
  constructor
  · rintro ⟨n, hn, rfl⟩
    dsimp only
    omega
  · rintro ⟨hx, hy, hz⟩
    refine ⟨c.x + 2 * c.y + 4 * c.z, by omega, ?_⟩
    cases c
    simp only [Corner.mk.injEq]
    simp only at hx hy hz
    omega

theorem length_pointMatrix [Scalar α] (m : Sym3 α) (gradients : List (Vec3 α)) :
    (pointMatrix m gradients).length = gradients.length * gradients.length := by
  simp [pointMatrix, List.length_flatMap]

theorem length_localMatrix [Scalar α] (metric : List (Sym3 α)) :
    (localMatrix metric gradients).length = cornerPairs.length := by
  have hpairs : ∀ p ∈ metric.zip (gradients : List (List (Vec3 α))), p.2.length = 8 := by
    intro p hp
    obtain ⟨q, -, hq⟩ := List.mem_map.mp (List.of_mem_zip hp).2
    rw [← hq, List.length_map]
    rfl
  refine List.foldlRecOn (motive := fun acc : List α => acc.length = 64) _ _
    List.length_replicate fun acc hacc p hp => ?_
  show (acc.zipWith (· + ·) (pointMatrix p.1 p.2)).length = 64
  rw [List.length_zipWith, length_pointMatrix, hpairs p hp, hacc]
  rfl

theorem exists_mem_vertices {p : List Nat → Prop} :
    (∃ v ∈ Shape.vertices .three, p v) ↔ ∃ c ∈ corners, p c.toList := by
  constructor
  · rintro ⟨v, hv, hp⟩
    obtain ⟨⟨a, b, c⟩, habc, rfl⟩ := List.mem_map.mp hv
    have hcorner : ∀ q ∈ Shape.cubeVertices, (⟨q.1, q.2.1, q.2.2⟩ : Corner) ∈ corners := by decide
    exact ⟨⟨a, b, c⟩, hcorner _ habc, hp⟩
  · rintro ⟨c, hc, hp⟩
    obtain ⟨hx, hy, hz⟩ := mem_corners.mp hc
    have hcorner : Lattice.IsCorner c.toList [1, 1, 1] := by
      simp [Lattice.IsCorner, Lattice.inBox, Corner.toList, hx, hy, hz]
    exact ⟨c.toList, (Shape.mem_vertices_iff rfl).mpr hcorner, hp⟩

theorem exists_mem_triplets [Scalar α] {order : Nat} (metric : Nat → Nat → Sym3 α) {m n : Nat} :
    (∃ t ∈ triplets order metric, t.row = m ∧ t.col = n) ↔
      ∃ k < order ^ 3, ∃ v ∈ Shape.vertices .three, ∃ w ∈ Shape.vertices .three,
        Kernel.cornerNode .three order k v = m ∧ Kernel.cornerNode .three order k w = n := by
  have hzip (k : Cell) : (cornerPairs.zip
      (localMatrix ((List.range 8).map (metric (k.number order))) gradients)).map Prod.fst =
        cornerPairs :=
    List.map_fst_zip (length_localMatrix _).ge
  simp only [triplets, List.mem_flatMap, List.mem_map, pow_succ, pow_zero, one_mul,
    Lattice.exists_lt_mul, exists_mem_vertices]
  constructor
  · rintro ⟨t, ⟨k, hk, ⟨⟨i, j⟩, value⟩, hp, rfl⟩, rfl, rfl⟩
    obtain ⟨hx, hy, hz⟩ := mem_cells.mp hk
    have hpair : (i, j) ∈ cornerPairs := hzip k ▸ List.mem_map_of_mem hp
    obtain ⟨hj, hi⟩ : j ∈ corners ∧ i ∈ corners := by simpa [cornerPairs] using hpair
    refine ⟨k.z, hz, k.y, hy, k.x, hx, i, hi, j, hj, ?_⟩
    rw [← node_eq hx hy hz, ← node_eq hx hy hz]
    exact ⟨rfl, rfl⟩
  · rintro ⟨z, hz, y, hy, x, hx, i, hi, j, hj, rfl, rfl⟩
    have hpair : (i, j) ∈ cornerPairs :=
      List.mem_flatMap.mpr ⟨j, hj, List.mem_map.mpr ⟨i, hi, rfl⟩⟩
    rw [← hzip ⟨x, y, z⟩] at hpair
    obtain ⟨⟨pair, value⟩, hp, hij⟩ := List.mem_map.mp hpair
    obtain rfl : pair = (i, j) := hij
    refine ⟨_, ⟨⟨x, y, z⟩, mem_cells.mpr ⟨hx, hy, hz⟩, _, hp, rfl⟩, ?_⟩
    rw [← node_eq hx hy hz, ← node_eq hx hy hz]
    exact ⟨rfl, rfl⟩

/-- Whatever the kernel of a spatial element reads is there: the terms of its sub-cells and the
places of the nodes at their corners. -/
def ReadsInside (order : Nat) (terms : Array α) (ordering : Array Nat) : Prop :=
  ∀ k ∈ cells order, 48 * k.number order + 48 ≤ terms.size ∧
    ∀ c ∈ corners, k.node order c < ordering.size

theorem readsInside {order : Nat} {terms : Array α} {ordering : Array Nat}
    (hterms : terms.size = 48 * order ^ 3) (hordering : ordering.size = (order + 1) ^ 3) :
    ReadsInside order terms ordering := by
  intro k hk
  obtain ⟨hx, hy, hz⟩ := mem_cells.mp hk
  constructor
  · have hlt := number_lt hk
    omega
  · intro c hc
    obtain ⟨hcx, hcy, hcz⟩ := mem_corners.mp hc
    have hnode : k.node order c =
        ((c.z + k.z) * (order + 1) + (c.y + k.y)) * (order + 1) + (c.x + k.x) := by
      rw [Cell.node]
      ring
    rw [hnode, hordering, pow_succ, pow_two]
    exact Lattice.place_lt (Lattice.place_lt (by omega) (by omega)) (by omega)

end Stencil.Solid

/-! ### Elements of either dimension -/

namespace Kernel

variable [Scalar α]

/-- The contributions of an element go to the pairs of nodes at corners of a common sub-cell. -/
theorem exists_mem_nodeTriplets (dim : Dimension) {order : Nat} (horder : 0 < order)
    (terms : Array α) {m n : Nat} :
    (∃ t ∈ nodeTriplets dim order terms, t.row = m ∧ t.col = n) ↔
      ∃ k < order ^ dim.value, ∃ v ∈ Shape.vertices dim, ∃ w ∈ Shape.vertices dim,
        cornerNode dim order k v = m ∧ cornerNode dim order k w = n := by
  cases dim with
  | two => exact Stencil.Planar.exists_mem_triplets horder (planarMetric terms)
  | three => exact Stencil.Solid.exists_mem_triplets (solidMetric terms)

/-- Whatever a kernel reads is there, the degrees of freedom at the listed places included. -/
def ReadsInside (dim : Dimension) (order : Nat) (terms : Array α) (dofs ordering : Array Nat) :
    Prop :=
  (∀ place ∈ ordering, place < dofs.size) ∧
    match dim with
    | .two => Stencil.Planar.ReadsInside order terms ordering
    | .three => Stencil.Solid.ReadsInside order terms ordering

/-- The kernel of an order reads nothing outside of arrays of the right sizes. -/
theorem readsInside {dim : Dimension} {order : Nat} (horder : 0 < order)
    (hlimit : order < Size.limit) {terms : Array α} {dofs ordering : Array Nat}
    (hterms : terms.size = dim.components * dim.vertices * order ^ dim.value)
    (hordering : ordering.size = (order + 1) ^ dim.value)
    (hplaces : ∀ place ∈ ordering, place < dofs.size) :
    ReadsInside dim order terms dofs ordering := by
  refine ⟨hplaces, ?_⟩
  cases dim with
  | two => exact Stencil.Planar.readsInside horder hlimit hterms hordering
  | three => exact Stencil.Solid.readsInside hterms hordering

end Kernel

end LowOrderRefinement
