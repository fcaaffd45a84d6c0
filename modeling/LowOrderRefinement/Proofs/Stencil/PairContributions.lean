import LowOrderRefinement.Proofs.Invariance.Locality
import LowOrderRefinement.Proofs.Cell.TextbookCell

/-! What an element contributes to the pairs of its nodes, in exact arithmetic. On a
sub-cell, the shape functions of two corners have a product: the metric applied to their
gradients, summed over the quadrature points. Both kernels contribute to a pair of nodes
the products of the corners at which the nodes sit, summed over the sub-cells that have
both. The planar kernel visits the pairs and adds one value to each; the spatial one visits
the sub-cells and adds one value for every pair of corners. The gradients at a point add up
to zero, and so do the contributions to a row and to a column. -/

namespace LowOrderRefinement

open Finset

variable {K : Type} [ExactField K]

/-! ### Sums of contributions -/

omit [ExactField K] in
theorem contributed_eq_nil (ts : List (Triplet K)) (m n : Nat) :
    contributed ts m n = [] ↔ ¬∃ t ∈ ts, t.row = m ∧ t.col = n := by
  simp [contributed]

theorem sum_value_filter (ts : List (Triplet K)) (p : Triplet K → Prop) [DecidablePred p] :
    ((ts.filter p).map (·.value)).sum =
      (ts.map fun t => (if p t then 1 else 0) * t.value).sum := by
  induction ts with
  | nil => rfl
  | cons t ts ih =>
    rw [List.filter_cons]
    by_cases ht : p t <;> simp [ht, ih]

/-- What is contributed to an entry adds up to the form at the indicators of its row and column. -/
theorem sum_contributed_eq (ts : List (Triplet K)) (m n : Nat) :
    (contributed ts m n).sum =
      (ts.map fun t => (if t.row = m then 1 else 0) * t.value * if t.col = n then 1 else 0).sum := by
  rw [contributed, sum_value_filter]
  refine congrArg List.sum (List.map_congr_left fun t _ => ?_)
  by_cases hrow : t.row = m <;> by_cases hcol : t.col = n <;> simp [hrow, hcol]

/-! ### Products of shape functions -/

namespace Kernel

/-- The value of a pair of nodes, sub-cell by sub-cell: a sub-cell that has both nodes as corners
brings the product of their shape functions. -/
def pairValue (dim : Dimension) (order : Nat) (terms : Array K) (m n : Nat) : K :=
  ∑ k ∈ range (order ^ dim.value),
    ((Shape.vertices dim).map fun v => ((Shape.vertices dim).map fun w =>
      if cornerNode dim order k v = m ∧ cornerNode dim order k w = n then
        cornerProduct dim terms k v w else 0).sum).sum

/-- An element contributes its value to every pair of nodes. -/
theorem sum_contributed (dim : Dimension) {order : Nat} (horder : 0 < order) (terms : Array K)
    (m n : Nat) :
    (contributed (nodeTriplets dim order terms) m n).sum = pairValue dim order terms m n := by
  rw [sum_contributed_eq, sum_nodeTriplets dim horder terms (fun i => if i = m then 1 else 0)
    fun j => if j = n then 1 else 0, pairValue]
  refine sum_congr rfl fun k _ => ?_
  rw [energy_eq_pairSum, DirectStiffness.pairSum]
  refine congrArg List.sum (List.map_congr_left fun v _ => ?_)
  refine congrArg List.sum (List.map_congr_left fun w _ => ?_)
  by_cases hv : cornerNode dim order k v = m <;>
    by_cases hw : cornerNode dim order k w = n <;> simp [hv, hw]

/-! ### Degrees of freedom -/

section Dofs

variable {dofs ordering : Array Nat}

/-- The degree of freedom of a node: the one that is listed at the place of the node. -/
def nodeDof (dofs ordering : Array Nat) (node : Nat) : Nat := dofs.getD (ordering.getD node 0) 0

theorem nodeDof_eq (hplaces : ∀ place ∈ ordering, place < dofs.size) {node : Nat}
    (hnode : node < ordering.size) :
    ordering[node]?.bind (dofs[·]?) = some (nodeDof dofs ordering node) := by
  have hplace : ordering[node] < dofs.size := hplaces _ (Array.getElem_mem hnode)
  simp [nodeDof, Array.getD_eq_getD_getElem?, hnode, hplace]

theorem ofOrder_eq_ok {α : Type} [Scalar α] {dim : Dimension} {order : Nat} {terms : Array α}
    (hterms : terms.size = dim.components * dim.vertices * order ^ dim.value)
    (hordering : ordering.size = (order + 1) ^ dim.value)
    (hplaces : ∀ place ∈ ordering, place < dofs.size) :
    ofOrder dim order terms dofs ordering =
      .ok ((nodeTriplets dim order terms).map (·.relabel (nodeDof dofs ordering))) := by
  apply Space.ofOrder_eq hterms hordering
  exact Array.all_eq_true.mpr fun i hi => decide_eq_true (hplaces _ (Array.getElem_mem hi))

end Dofs

end Kernel

/-! ### Pairs of planar nodes -/

/-- A node has itself and the nodes beside it as neighbours, and the two ends have only one
beside them. -/
theorem Hat.sum_length_neighbours {order : Nat} (horder : 0 < order) :
    ∑ i ∈ range (order + 1), (neighbours i (order + 1)).length = 3 * order + 1 := by
  have hlength : ∀ i ∈ range (order + 1), (neighbours i (order + 1)).length =
      1 + (if i = 0 then 0 else 1) + if i = order then 0 else 1 := by
    intro i hi
    rw [mem_range] at hi
    rw [neighbours, List.length_range']
    split <;> split <;> omega
  have hfirst : ∑ i ∈ range (order + 1), (if i = 0 then 0 else 1) = order := by
    simp [sum_range_succ']
  have hlast : ∑ i ∈ range (order + 1), (if i = order then 0 else 1) = order := by
    rw [sum_range_succ, sum_congr rfl fun i hi => if_neg (mem_range.mp hi).ne]
    simp
  rw [sum_congr rfl hlength, sum_add_distrib, sum_add_distrib, hfirst, hlast]
  simp
  omega

namespace Stencil.Planar

theorem length_pairs {order : Nat} (horder : 0 < order) :
    (pairs order).length = (3 * order + 1) ^ 2 := by
  have hrow (i : Node) : ((neighbours order i).map fun j => (i, j)).length =
      (Hat.neighbours i.x (order + 1)).length * (Hat.neighbours i.y (order + 1)).length := by
    simp [neighbours, List.length_flatMap]
  calc (pairs order).length
      = ∑ y ∈ range (order + 1), ∑ x ∈ range (order + 1),
          (Hat.neighbours x (order + 1)).length * (Hat.neighbours y (order + 1)).length := by
        simp only [pairs, nodes, List.flatMap_assoc, List.flatMap_map, List.length_flatMap, hrow]
        rfl
    _ = (∑ i ∈ range (order + 1), (Hat.neighbours i (order + 1)).length) ^ 2 := by
        rw [pow_two, sum_mul_sum, sum_comm]
    _ = (3 * order + 1) ^ 2 := by rw [Hat.sum_length_neighbours horder]

theorem mk_mem_pairs {order : Nat} {i j : Node} :
    (i, j) ∈ pairs order ↔ (i.x ≤ order ∧ i.y ≤ order) ∧ (j.x ≤ order ∧ j.y ≤ order) ∧
      (i.x ≤ j.x + 1 ∧ j.x ≤ i.x + 1) ∧ i.y ≤ j.y + 1 ∧ j.y ≤ i.y + 1 := by
  have hpairs : (i, j) ∈ pairs order ↔ i ∈ nodes order ∧ j ∈ neighbours order i := mem_pairs
  rw [hpairs, mem_nodes]
  constructor
  · rintro ⟨⟨hix, hiy⟩, hj⟩
    obtain ⟨hx, hy⟩ := mem_coupled.mp hj
    rw [Hat.mem_neighbours hix] at hx
    rw [Hat.mem_neighbours hiy] at hy
    omega
  · rintro ⟨⟨hix, hiy⟩, ⟨hjx, hjy⟩, hx, hy⟩
    refine ⟨⟨by omega, by omega⟩, mem_coupled.mpr ⟨?_, ?_⟩⟩
    · rw [Hat.mem_neighbours (by omega)]
      omega
    · rw [Hat.mem_neighbours (by omega)]
      omega

/-- The one value that the kernel computes for a pair is the value of the pair. -/
theorem coupling_eq_pairValue {order : Nat} (horder : 0 < order) (terms : Array K)
    {p : Node × Node} (hp : p ∈ pairs order) :
    coupling order (Kernel.planarMetric terms) p.1 p.2 =
      Kernel.pairValue .two order terms (p.1.number order) (p.2.number order) := by
  have hunchanged (ts : List (Triplet K)) : ts.map (·.relabel id) = ts := List.map_id' ts
  have honly := contributed_eq_map order (Kernel.planarMetric terms) id (p.1.number order)
    (p.2.number order)
  -- numbers tell nodes apart, so that no other pair contributes to the entry
  have hsingle : pairsTo order id (p.1.number order) (p.2.number order) = [p] :=
    pairsTo_eq_singleton (fun m _ n _ h => h) hp
  rw [hunchanged, hsingle] at honly
  rw [← Kernel.sum_contributed .two horder, Kernel.nodeTriplets, honly]
  simp

theorem triplets_eq_map {order : Nat} (horder : 0 < order) (terms : Array K) :
    triplets order (Kernel.planarMetric terms) = (pairs order).map fun p =>
      ⟨p.1.number order, p.2.number order,
        Kernel.pairValue .two order terms (p.1.number order) (p.2.number order)⟩ := by
  have hpairs : triplets order (Kernel.planarMetric terms) = (pairs order).map fun p =>
      ⟨p.1.number order, p.2.number order, coupling order (Kernel.planarMetric terms) p.1 p.2⟩ := by
    simp only [triplets, pairs, List.map_flatMap, List.map_map, Function.comp_def]
  rw [hpairs]
  refine List.map_congr_left fun p hp => ?_
  rw [coupling_eq_pairValue horder terms hp]

end Stencil.Planar

/-! ### Corners of spatial sub-cells -/

theorem Lattice.range_mul (rows length : Nat) : List.range (rows * length) =
    (List.range rows).flatMap fun i => (List.range length).map fun j => i * length + j := by
  induction rows with
  | zero => simp
  | succ rows ih => rw [Nat.succ_mul, List.range_add, ih, List.range_succ, List.flatMap_append]; simp

namespace Stencil.Solid

theorem map_number_cells (order : Nat) :
    (cells order).map (Cell.number order) = List.range (order ^ 3) := by
  rw [pow_succ, pow_two, Lattice.range_mul, Lattice.range_mul]
  simp only [cells, List.map_flatMap, List.map_map, List.flatMap_assoc, List.flatMap_map]
  refine List.flatMap_congr fun z _ => List.flatMap_congr fun y _ => List.map_congr_left fun x _ => ?_
  exact number_eq order ⟨x, y, z⟩

theorem value_eq_delta {i q : Nat} (hi : i < 2) (hq : q < 2) :
    (Shape.value i (q : K) : K) = delta i q := by
  interval_cases i <;> interval_cases q <;> simp [Shape.value, delta]

/-- The gradients that the kernel tabulates are those of the shape functions of the corners. -/
theorem gradient_eq {q : Nat} (hq : q < 8) {c : Corner} (hc : c ∈ corners) :
    (gradient (corner q) c : Vec3 K) =
      Hexahedron.gradient (Quadrature.solidPoint q) c.toList := by
  obtain ⟨hx, hy, hz⟩ := mem_corners.mp hc
  simp only [gradient, corner, Corner.toList, Hexahedron.gradient, Quadrature.solidPoint,
    value_eq_delta hx (show q % 2 < 2 by omega), value_eq_delta hy (show q / 2 % 2 < 2 by omega),
    value_eq_delta hz (show q / 4 < 2 by omega)]
  rfl

/-- The contributions of a sub-cell, one for every ordered pair of its corners. -/
def cellBlock (order : Nat) (terms : Array K) (cell : Nat) : List (Triplet K) :=
  cornerPairs.map fun (i, j) =>
    ⟨Kernel.cornerNode .three order cell i.toList, Kernel.cornerNode .three order cell j.toList,
      Kernel.cornerProduct .three terms cell i.toList j.toList⟩

theorem cellTriplets_eq {order : Nat} (terms : Array K) {k : Cell} (hk : k ∈ cells order) :
    cellTriplets order (Kernel.solidMetric terms) k = cellBlock order terms (k.number order) := by
  obtain ⟨hx, hy, hz⟩ := mem_cells.mp hk
  rw [cellTriplets, localMatrix_eq, zip_map_cornerPairs, List.map_map, cellBlock]
  refine List.map_congr_left fun p hp => ?_
  obtain ⟨i, j⟩ := p
  obtain ⟨hj, hi⟩ : j ∈ corners ∧ i ∈ corners := by simpa [cornerPairs] using hp
  have hproduct : ((List.range 8).map fun q => (Kernel.solidMetric terms (k.number order) q).form
      (gradient (corner q) i) (gradient (corner q) j)).sum =
        Kernel.cornerProduct .three terms (k.number order) i.toList j.toList := by
    rw [sum_map_range, Kernel.cornerProduct]
    refine sum_congr rfl fun q hq => ?_
    rw [gradient_eq (mem_range.mp hq) hi, gradient_eq (mem_range.mp hq) hj]
  simp only [Function.comp_apply, hproduct]
  rw [number_eq, ← node_eq hx hy hz, ← node_eq hx hy hz]

theorem triplets_eq_flatMap (order : Nat) (terms : Array K) :
    triplets order (Kernel.solidMetric terms) =
      (List.range (order ^ 3)).flatMap (cellBlock order terms) := by
  rw [triplets_eq, ← map_number_cells, List.flatMap_map]
  exact List.flatMap_congr fun k hk => cellTriplets_eq terms hk

end Stencil.Solid

/-! ### The contributions of an element -/

namespace Kernel

/-- Metric terms that are neither definite nor those of a cell. -/
def skewTerms (n : Nat) : Array ℚ :=
  ((List.range n).map fun i => ((i * i % 7 : Nat) : ℚ) - 2).toArray

theorem size_skewTerms (n : Nat) : (skewTerms n).size = n := by simp [skewTerms]

def sharedDofs : Array Nat := #[4, 4, 9, 0, 2, 7, 6, 5, 1]

def repeatedPlaces (nodes : Nat) : Array Nat := ((List.range nodes).map fun i => i * i % 9).toArray

theorem size_repeatedPlaces (nodes : Nat) : (repeatedPlaces nodes).size = nodes := by
  simp [repeatedPlaces]

variable {order : Nat} {terms : Array K} {dofs ordering : Array Nat}

/-- The kernel of a planar element reads nothing outside of its arrays. It adds one value to every
pair of nodes that are at most one step apart along both axes, and to no other pair: the value of
the pair, at the degrees of freedom of its nodes. -/
theorem planar_contributions (horder : 0 < order) (hterms : terms.size = 12 * order ^ 2)
    (hordering : ordering.size = (order + 1) ^ 2)
    (hplaces : ∀ place ∈ ordering, place < dofs.size) :
    (order < Size.limit → ReadsInside .two order terms dofs ordering) ∧
    (∀ n < (order + 1) ^ 2,
      ordering[n]?.bind (dofs[·]?) = some (nodeDof dofs ordering n)) ∧
    (Stencil.Planar.pairs order).Nodup ∧
    (Stencil.Planar.pairs order).length = (3 * order + 1) ^ 2 ∧
    (∀ i j : Stencil.Planar.Node, (i, j) ∈ Stencil.Planar.pairs order ↔
      (i.x ≤ order ∧ i.y ≤ order) ∧ (j.x ≤ order ∧ j.y ≤ order) ∧
        (i.x ≤ j.x + 1 ∧ j.x ≤ i.x + 1) ∧ i.y ≤ j.y + 1 ∧ j.y ≤ i.y + 1) ∧
    ofOrder .two order terms dofs ordering = .ok ((Stencil.Planar.pairs order).map fun p =>
      ⟨nodeDof dofs ordering (p.1.number order), nodeDof dofs ordering (p.2.number order),
        pairValue .two order terms (p.1.number order) (p.2.number order)⟩) := by
  refine ⟨fun hlimit => readsInside horder hlimit hterms hordering hplaces,
    fun n hn => nodeDof_eq hplaces (hordering ▸ hn), Stencil.Planar.nodup_pairs order,
    Stencil.Planar.length_pairs horder, fun i j => Stencil.Planar.mk_mem_pairs, ?_⟩
  rw [ofOrder_eq_ok hterms hordering hplaces, nodeTriplets,
    Stencil.Planar.triplets_eq_map horder, List.map_map]
  rfl

/-- Nine nodes with a common degree of freedom among them make 49 pairs. The center and the node
beside it meet in two sub-cells. -/
theorem planar_contributions_skew :
    (∀ place ∈ repeatedPlaces 9, place < sharedDofs.size) ∧
    ∃ ts, ofOrder .two 2 (skewTerms 48) sharedDofs (repeatedPlaces 9) = .ok ts ∧
      ts.length = 49 ∧ ⟨5, 5, 6⟩ ∈ ts := by
  have hplaces : ∀ place ∈ repeatedPlaces 9, place < sharedDofs.size := by decide
  obtain ⟨-, -, -, hlength, hpairs, hok⟩ := planar_contributions (by decide : 0 < 2)
    (size_skewTerms (12 * 2 ^ 2)) (size_repeatedPlaces ((2 + 1) ^ 2)) hplaces
  refine ⟨hplaces, _, hok, ?_, ?_⟩
  · rw [List.length_map, hlength]
    rfl
  · have hvalue : pairValue .two 2 (skewTerms 48) 4 5 = 6 := by decide +kernel
    exact List.mem_map.mpr ⟨(⟨1, 1⟩, ⟨2, 1⟩), (hpairs _ _).mpr (by decide), by rw [← hvalue]; rfl⟩

/-- The kernel of a spatial element reads nothing outside of its arrays. It visits the sub-cells
one after the other and adds the product of the shape functions of two corners for each of the 64
ordered pairs of corners of a sub-cell. What it adds to a pair of nodes sums to the value of the
pair, and it adds nothing to two nodes that are not corners of a common sub-cell. -/
theorem solid_contributions (horder : 0 < order) (hterms : terms.size = 48 * order ^ 3)
    (hordering : ordering.size = (order + 1) ^ 3)
    (hplaces : ∀ place ∈ ordering, place < dofs.size) :
    let pushed := (List.range (order ^ 3)).flatMap (Stencil.Solid.cellBlock order terms)
    ReadsInside .three order terms dofs ordering ∧
    (∀ n < (order + 1) ^ 3,
      ordering[n]?.bind (dofs[·]?) = some (nodeDof dofs ordering n)) ∧
    ofOrder .three order terms dofs ordering =
      .ok (pushed.map (·.relabel (nodeDof dofs ordering))) ∧
    (∀ k, (Stencil.Solid.cellBlock order terms k).length = 64) ∧
    (∀ m n, (contributed pushed m n).sum = pairValue .three order terms m n) ∧
    ∀ m n, contributed pushed m n = [] ↔ ∀ k < order ^ 3, ¬Meet .three order k m n := by
  intro pushed
  have hpushed : nodeTriplets .three order terms = pushed :=
    Stencil.Solid.triplets_eq_flatMap order terms
  refine ⟨⟨hplaces, Stencil.Solid.readsInside hterms hordering⟩,
    fun n hn => nodeDof_eq hplaces (hordering ▸ hn), ?_, fun k => rfl, fun m n => ?_,
    fun m n => ?_⟩
  · rw [ofOrder_eq_ok hterms hordering hplaces, hpushed]
  · rw [← hpushed, sum_contributed .three horder]
  · rw [contributed_eq_nil, ← hpushed, exists_mem_nodeTriplets .three horder terms]
    simp only [Meet, not_exists, not_and, Dimension.value]

/-- The middle node of an edge of the element and the center of the element meet in two sub-cells,
and opposite corners of the element in none. -/
theorem solid_contributions_skew :
    (∀ place ∈ repeatedPlaces 27, place < sharedDofs.size) ∧
    ∃ pushed, ofOrder .three 2 (skewTerms 384) sharedDofs (repeatedPlaces 27) =
        .ok (pushed.map (·.relabel (nodeDof sharedDofs (repeatedPlaces 27)))) ∧
      pushed.length = 512 ∧ (contributed pushed 1 13).sum = 4 ∧ contributed pushed 0 26 = [] := by
  have hplaces : ∀ place ∈ repeatedPlaces 27, place < sharedDofs.size := by decide
  obtain ⟨-, -, hok, hlength, hsum, hnone⟩ := solid_contributions (by decide : 0 < 2)
    (size_skewTerms (48 * 2 ^ 3)) (size_repeatedPlaces ((2 + 1) ^ 3)) hplaces
  refine ⟨hplaces, _, hok, ?_, ?_, ?_⟩
  · simp only [List.length_flatMap, hlength]
    rfl
  · rw [hsum]
    decide +kernel
  · rw [hnone]
    unfold Meet
    decide

/-- Functions on the rows have no energy with a constant, so that the contributions of every row
sum to zero. -/
theorem sum_rows_eq_zero (dim : Dimension) (horder : 0 < order) (terms : Array K) (x : Nat → K) :
    ((nodeTriplets dim order terms).map fun t => x t.row * t.value).sum = 0 := by
  have hsum := sum_nodeTriplets dim horder terms x fun _ => 1
  simp only [mul_one, energy_const, sum_const_zero] at hsum
  exact hsum

theorem sum_cols_eq_zero (dim : Dimension) (horder : 0 < order) (terms : Array K) (y : Nat → K) :
    ((nodeTriplets dim order terms).map fun t => y t.col * t.value).sum = 0 := by
  have hsum := sum_nodeTriplets dim horder terms (fun _ => 1) y
  simp only [one_mul, energy_comm dim terms _ fun _ => 1, energy_const, sum_const_zero] at hsum
  simpa only [mul_comm] using hsum

/-- Whatever the metric terms are, and however many nodes share a degree of freedom, what an element
contributes to a row sums to zero, and so does what it contributes to a column. -/
theorem contributions_sum_zero (dim : Dimension) (horder : 0 < order)
    (hterms : terms.size = dim.components * dim.vertices * order ^ dim.value)
    (hordering : ordering.size = (order + 1) ^ dim.value)
    (hplaces : ∀ place ∈ ordering, place < dofs.size) :
    ∃ ts, ofOrder dim order terms dofs ordering = .ok ts ∧ ∀ g,
      ((ts.filter fun t => t.row = g).map (·.value)).sum = 0 ∧
      ((ts.filter fun t => t.col = g).map (·.value)).sum = 0 := by
  refine ⟨_, ofOrder_eq_ok hterms hordering hplaces, fun g => ⟨?_, ?_⟩⟩
  · rw [sum_value_filter, List.map_map]
    exact sum_rows_eq_zero dim horder terms fun n => if nodeDof dofs ordering n = g then 1 else 0
  · rw [sum_value_filter, List.map_map]
    exact sum_cols_eq_zero dim horder terms fun n => if nodeDof dofs ordering n = g then 1 else 0

/-- The rows of an element in the plane and the columns of one in space, with a common degree of
freedom among their nodes. -/
theorem contributions_sum_zero_skew :
    (∀ place ∈ repeatedPlaces 9, place < sharedDofs.size) ∧
    (∀ place ∈ repeatedPlaces 27, place < sharedDofs.size) ∧
    (∃ ts, ofOrder .two 2 (skewTerms 48) sharedDofs (repeatedPlaces 9) = .ok ts ∧
      ((ts.filter fun t => t.row = 5).map (·.value)).sum = 0) ∧
    ∃ ts, ofOrder .three 2 (skewTerms 384) sharedDofs (repeatedPlaces 27) = .ok ts ∧
      ((ts.filter fun t => t.col = 5).map (·.value)).sum = 0 := by
  have hplanar : ∀ place ∈ repeatedPlaces 9, place < sharedDofs.size := by decide
  have hsolid : ∀ place ∈ repeatedPlaces 27, place < sharedDofs.size := by decide
  obtain ⟨ts, hts, hsums⟩ := contributions_sum_zero .two (by decide : 0 < 2)
    (size_skewTerms 48) (size_repeatedPlaces 9) hplanar
  obtain ⟨us, hus, hsums'⟩ := contributions_sum_zero .three (by decide : 0 < 2)
    (size_skewTerms 384) (size_repeatedPlaces 27) hsolid
  exact ⟨hplanar, hsolid, ⟨ts, hts, (hsums 5).1⟩, us, hus, (hsums' 5).2⟩

end Kernel

end LowOrderRefinement
