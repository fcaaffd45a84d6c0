import LowOrderRefinement.Proofs.ExactField
import LowOrderRefinement.Lattice
import LowOrderRefinement.Proofs.Cell.CellEnergy
import LowOrderRefinement.Proofs.Stencil.RowSums

/-! What the contributions of an element add up to. Weighted with the values of two
functions at the nodes, the contributions of either kernel sum to the energies of
the two functions on the sub-cells of the element: the planar kernel collects the
contributions to a pair of nodes from all sub-cells beside both, the spatial one
scatters the local matrix of each sub-cell. -/

namespace LowOrderRefinement

open Finset

variable {K : Type} [ExactField K]

namespace Kernel

/-- The number of the node of an element at a corner of one of its sub-cells. -/
def cornerNode (dim : Dimension) (order cell : Nat) (corner : List Nat) : Nat :=
  Lattice.flatten (Lattice.shift (Lattice.unflatten cell (List.replicate dim.value order)) corner)
    (List.replicate dim.value (order + 1))

end Kernel

/-! ### Planar elements -/

namespace Sym2

theorem sum_form_left {β : Type} (m : Sym2 K) (g : β → Vec2 K) (u : β → K) (w : Vec2 K)
    (xs : List β) :
    (xs.map fun i => u i * m.form (g i) w).sum =
      m.form ⟨(xs.map fun i => u i * (g i).x).sum, (xs.map fun i => u i * (g i).y).sum⟩ w := by
  have hform (v : Vec2 K) :
      m.form v w = v.x * (m.xx * w.x + m.xy * w.y) + v.y * (m.xy * w.x + m.yy * w.y) := by
    rw [form]
    ring
  simp only [hform, mul_add (u _), ← mul_assoc (u _), List.sum_map_add, List.sum_map_mul_right]

end Sym2

namespace Stencil.Planar

theorem accumulate_eq (acc : K) (u v : Vec2 K) (m : Sym2 K) :
    accumulate acc u v m = acc + m.form u v := by
  simp only [accumulate, Sym2.form]
  ring

/-- The gradient at an end of the hat function of a corner. -/
def cornerGradient (a c qx qy : Nat) : Vec2 K :=
  ⟨(if a = 0 then -1 else 1) * (if c = qy then 1 else 0),
    (if a = qx then 1 else 0) * (if c = 0 then -1 else 1)⟩

theorem gradient_eq {a c qx qy : Nat} (ha : a < 2) (hc : c < 2) (hqx : qx < 2) (hqy : qy < 2)
    (kx ky : Nat) :
    (gradient ⟨kx + a, ky + c⟩ ⟨kx, ky, qx, qy⟩ : Vec2 K) = cornerGradient a c qx qy := by
  simp only [gradient, Hat.sample_add ha hqx, Hat.sample_add hc hqy, cornerGradient]

/-- The value of a pair of nodes sums over the cells between them and their quadrature points. -/
theorem coupling_eq (order : Nat) (metric : Nat → Nat → Sym2 K) (i j : Node) :
    coupling order metric i j =
      ((Hat.sharedCells i.y j.y order).map fun ky => ((Hat.sharedCells i.x j.x order).map fun kx =>
        ∑ qy ∈ range 2, ∑ qx ∈ range 2, (metric (kx + ky * order) (qx + qy * 2)).form
          (gradient i ⟨kx, ky, qx, qy⟩) (gradient j ⟨kx, ky, qx, qy⟩)).sum).sum := by
  simp only [coupling, accumulate_eq, foldl_eq_sum, support, sum_map_flatMap, List.map_map,
    zero_add, sum_range_succ, sum_range_zero]
  simp [Function.comp_def, Sample.cell, Sample.point]

/-- The differences of a function at a corner combine the gradients of the corner functions. -/
theorem sum_cornerGradient (u : List Nat → K) {qx qy : Nat} (hqx : qx < 2) (hqy : qy < 2) :
    (⟨∑ c ∈ range 2, ∑ a ∈ range 2, u [a, c] * (cornerGradient a c qx qy : Vec2 K).x,
      ∑ c ∈ range 2, ∑ a ∈ range 2, u [a, c] * (cornerGradient a c qx qy : Vec2 K).y⟩ : Vec2 K) =
      planarGradient u qx qy := by
  simp only [sum_range_succ, sum_range_zero, cornerGradient, planarGradient]
  interval_cases qx <;> interval_cases qy <;> simp <;> constructor <;> ring

theorem sum_corners (m : Sym2 K) (u v : List Nat → K) {qx qy : Nat} (hqx : qx < 2) (hqy : qy < 2) :
    ∑ c ∈ range 2, ∑ d ∈ range 2, ∑ a ∈ range 2, ∑ b ∈ range 2,
        u [a, c] * m.form (cornerGradient a c qx qy) (cornerGradient b d qx qy) * v [b, d] =
      m.form (planarGradient u qx qy) (planarGradient v qx qy) := by
  rw [← sum_cornerGradient u hqx hqy, ← sum_cornerGradient v hqx hqy]
  simp only [sum_range_succ, sum_range_zero, Sym2.form]
  ring

/-- The pairs of corners of a cell contribute the energy of the cell. -/
theorem sum_cell (metric : Nat → Sym2 K) (u v : List Nat → K) (kx ky : Nat) :
    ∑ c ∈ range 2, ∑ d ∈ range 2, ∑ a ∈ range 2, ∑ b ∈ range 2, ∑ qy ∈ range 2, ∑ qx ∈ range 2,
        u [a, c] * (metric (qx + qy * 2)).form (gradient ⟨kx + a, ky + c⟩ ⟨kx, ky, qx, qy⟩)
          (gradient ⟨kx + b, ky + d⟩ ⟨kx, ky, qx, qy⟩) * v [b, d] =
      ∑ qy ∈ range 2, ∑ qx ∈ range 2,
        (metric (qx + qy * 2)).form (planarGradient u qx qy) (planarGradient v qx qy) := by
  calc _ = ∑ c ∈ range 2, ∑ d ∈ range 2, ∑ a ∈ range 2, ∑ b ∈ range 2,
        ∑ qy ∈ range 2, ∑ qx ∈ range 2, u [a, c] * (metric (qx + qy * 2)).form
          (cornerGradient a c qx qy) (cornerGradient b d qx qy) * v [b, d] := by
        refine sum_congr rfl fun c hc => sum_congr rfl fun d hd => sum_congr rfl fun a ha =>
          sum_congr rfl fun b hb => sum_congr rfl fun qy hqy => sum_congr rfl fun qx hqx => ?_
        rw [mem_range] at hc hd ha hb hqy hqx
        rw [gradient_eq ha hc hqx hqy, gradient_eq hb hd hqx hqy]
    _ = ∑ qy ∈ range 2, ∑ qx ∈ range 2, ∑ c ∈ range 2, ∑ d ∈ range 2, ∑ a ∈ range 2,
        ∑ b ∈ range 2, u [a, c] * (metric (qx + qy * 2)).form
          (cornerGradient a c qx qy) (cornerGradient b d qx qy) * v [b, d] := by
        simp only [sum_range_succ, sum_range_zero]
        ring
    _ = _ := by
        refine sum_congr rfl fun qy hqy => sum_congr rfl fun qx hqx => ?_
        exact sum_corners _ u v (mem_range.mp hqx) (mem_range.mp hqy)

theorem cornerNode_eq {order kx ky : Nat} (hkx : kx < order) (hky : ky < order) (a c : Nat) :
    Kernel.cornerNode .two order (ky * order + kx) [a, c] = kx + a + (ky + c) * (order + 1) := by
  simp only [Kernel.cornerNode, Dimension.value, List.replicate, Lattice.unflatten,
    Nat.mul_add_mod_of_lt hkx, Lattice.place_div hkx, Nat.mod_eq_of_lt hky, Lattice.shift,
    List.zipWith, Lattice.flatten]
  ring

theorem sum_triplets_nodes {order : Nat} (horder : 0 < order) (metric : Nat → Nat → Sym2 K)
    (x y : Nat → K) :
    ((triplets order metric).map fun t => x t.row * t.value * y t.col).sum =
      ∑ iy ∈ range (order + 1), ∑ ix ∈ range (order + 1),
        ∑ jx ∈ Ico (ix - 1) (min (ix + 1) order + 1), ∑ jy ∈ Ico (iy - 1) (min (iy + 1) order + 1),
        ∑ ky ∈ Ico (max (iy - 1) (jy - 1)) (min (min iy jy) (order - 1) + 1),
        ∑ kx ∈ Ico (max (ix - 1) (jx - 1)) (min (min ix jx) (order - 1) + 1),
        ∑ qy ∈ range 2, ∑ qx ∈ range 2,
          x (ix + iy * (order + 1)) * (metric (kx + ky * order) (qx + qy * 2)).form
            (gradient ⟨ix, iy⟩ ⟨kx, ky, qx, qy⟩) (gradient ⟨jx, jy⟩ ⟨kx, ky, qx, qy⟩) *
            y (jx + jy * (order + 1)) := by
  simp only [triplets, nodes, neighbours, sum_map_flatMap, List.map_map, Function.comp_def,
    sum_map_range, Node.number]
  refine sum_congr rfl fun iy hiy => sum_congr rfl fun ix hix => ?_
  rw [mem_range, Nat.lt_succ_iff] at hiy hix
  rw [Hat.sum_neighbours _ hix]
  refine sum_congr rfl fun jx hjx => ?_
  rw [Hat.sum_neighbours _ hiy]
  refine sum_congr rfl fun jy hjy => ?_
  rw [coupling_eq, Hat.sum_sharedCells _ horder hiy hjy]
  simp only [Hat.sum_sharedCells _ horder hix hjx, mul_sum, sum_mul]

theorem sum_triplets {order : Nat} (horder : 0 < order) (metric : Nat → Nat → Sym2 K)
    (x y : Nat → K) :
    ((triplets order metric).map fun t => x t.row * t.value * y t.col).sum =
      ∑ ky ∈ range order, ∑ kx ∈ range order, ∑ qy ∈ range 2, ∑ qx ∈ range 2,
        (metric (kx + ky * order) (qx + qy * 2)).form
          (planarGradient (fun v => x (Kernel.cornerNode .two order (ky * order + kx) v)) qx qy)
          (planarGradient (fun v => y (Kernel.cornerNode .two order (ky * order + kx) v))
            qx qy) := by
  rw [sum_triplets_nodes horder, Hat.sum_planarPairs _ horder]
  refine sum_congr rfl fun ky hky => sum_congr rfl fun kx hkx => ?_
  rw [mem_range] at hkx hky
  simp only [← cornerNode_eq hkx hky]
  exact sum_cell (metric (kx + ky * order)) (fun v => x (Kernel.cornerNode .two order _ v))
    (fun v => y (Kernel.cornerNode .two order _ v)) kx ky

end Stencil.Planar

/-! ### Spatial elements -/

namespace Sym3

theorem dot_mulVec (m : Sym3 K) (u v : Vec3 K) : u.dot (m.toMat.mulVec v) = m.form u v := by
  simp only [Vec3.dot, Mat3.mulVec, toMat, form]
  ring

theorem sum_form_left {β : Type} (m : Sym3 K) (g : β → Vec3 K) (u : β → K) (w : Vec3 K)
    (xs : List β) :
    (xs.map fun i => u i * m.form (g i) w).sum =
      m.form ⟨(xs.map fun i => u i * (g i).x).sum, (xs.map fun i => u i * (g i).y).sum,
        (xs.map fun i => u i * (g i).z).sum⟩ w := by
  have hform (v : Vec3 K) :
      m.form v w = v.x * (m.xx * w.x + m.xy * w.y + m.xz * w.z) +
        v.y * (m.xy * w.x + m.yy * w.y + m.yz * w.z) +
        v.z * (m.xz * w.x + m.yz * w.y + m.zz * w.z) := by
    rw [form]
    ring
  simp only [hform, mul_add (u _), ← mul_assoc (u _), List.sum_map_add, List.sum_map_mul_right]

end Sym3

namespace Stencil.Solid

def corner (n : Nat) : Corner := ⟨n % 2, n / 2 % 2, n / 4⟩

def Corner.toList (c : Corner) : List Nat := [c.x, c.y, c.z]

omit [ExactField K] in
theorem map_cornerPairs {β : Type} (f : Corner → Corner → β) :
    (cornerPairs.map fun p => f p.1 p.2) = corners.flatMap fun j => corners.map fun i => f i j := by
  simp only [cornerPairs, List.map_flatMap, List.map_map, Function.comp_def]

omit [ExactField K] in
theorem zip_map_cornerPairs (f : Corner × Corner → K) :
    cornerPairs.zip (cornerPairs.map f) = cornerPairs.map fun p => (p, f p) := by
  have h := List.zip_map' (l := cornerPairs) (f := id) (g := f)
  rwa [List.map_id] at h

theorem pointMatrix_eq (m : Sym3 K) (g : Corner → Vec3 K) :
    pointMatrix m (corners.map g) = cornerPairs.map fun p => m.form (g p.1) (g p.2) := by
  rw [map_cornerPairs fun i j => m.form (g i) (g j)]
  simp only [pointMatrix, List.flatMap_map, List.map_map, Function.comp_def, Sym3.dot_mulVec]

theorem foldl_pointMatrix (metric : Nat → Sym3 K) (qs : List Nat) (start : Corner × Corner → K) :
    (qs.map fun q => (metric q, corners.map (gradient (corner q)))).foldl
        (fun acc (m, g) => acc.zipWith (· + ·) (pointMatrix m g)) (cornerPairs.map start) =
      cornerPairs.map fun p => start p + (qs.map fun q =>
        (metric q).form (gradient (corner q) p.1) (gradient (corner q) p.2)).sum := by
  induction qs generalizing start with
  | nil => simp
  | cons q qs ih =>
    simp only [List.map_cons, List.foldl_cons, pointMatrix_eq, List.zipWith_map, List.zipWith_self]
    rw [ih]
    simp only [List.sum_cons, add_assoc]

/-- The local matrix sums the products of the corner functions over the quadrature points. -/
theorem localMatrix_eq (metric : Nat → Sym3 K) :
    localMatrix ((List.range 8).map metric) gradients = cornerPairs.map fun p =>
      ((List.range 8).map fun q =>
        (metric q).form (gradient (corner q) p.1) (gradient (corner q) p.2)).sum := by
  have hstart : (List.replicate 64 0 : List K) = cornerPairs.map fun _ => 0 := rfl
  have hgradients : (gradients : List (List (Vec3 K))) =
      (List.range 8).map fun q => corners.map (gradient (corner q)) := by
    simp only [gradients, corners, List.map_map, Function.comp_def, corner]
  rw [localMatrix, hgradients, List.zip_map', hstart, foldl_pointMatrix]
  simp only [zero_add]

theorem sum_gradient (u : List Nat → K) {q : Nat} (hq : q < 8) :
    (⟨(corners.map fun i => u i.toList * (gradient (corner q) i : Vec3 K).x).sum,
      (corners.map fun i => u i.toList * (gradient (corner q) i : Vec3 K).y).sum,
      (corners.map fun i => u i.toList * (gradient (corner q) i : Vec3 K).z).sum⟩ : Vec3 K) =
      solidGradient u (q % 2) (q / 2 % 2) (q / 4) := by
  have hcorners : corners = [⟨0, 0, 0⟩, ⟨1, 0, 0⟩, ⟨0, 1, 0⟩, ⟨1, 1, 0⟩, ⟨0, 0, 1⟩, ⟨1, 0, 1⟩,
    ⟨0, 1, 1⟩, ⟨1, 1, 1⟩] := rfl
  simp only [hcorners, List.map_cons, List.map_nil, List.sum_cons, List.sum_nil, gradient, corner,
    solidGradient, Corner.toList, slope, delta]
  interval_cases q <;> simp <;> refine ⟨?_, ?_, ?_⟩ <;> ring

theorem sum_cornerPairs (m : Sym3 K) (u v : List Nat → K) {q : Nat} (hq : q < 8) :
    (cornerPairs.map fun p => u p.1.toList * m.form (gradient (corner q) p.1)
        (gradient (corner q) p.2) * v p.2.toList).sum =
      m.form (solidGradient u (q % 2) (q / 2 % 2) (q / 4))
        (solidGradient v (q % 2) (q / 2 % 2) (q / 4)) := by
  rw [← sum_gradient u hq, m.form_comm, ← sum_gradient v hq, ← m.sum_form_left, cornerPairs,
    sum_map_flatMap]
  congr 1
  refine List.map_congr_left fun j _ => ?_
  rw [m.form_comm, ← m.sum_form_left, List.map_map, mul_comm, ← List.sum_map_mul_right]
  rfl

theorem node_eq {order kx ky kz : Nat} (hkx : kx < order) (hky : ky < order) (hkz : kz < order)
    (c : Corner) :
    Cell.node order ⟨kx, ky, kz⟩ c =
      Kernel.cornerNode .three order ((kz * order + ky) * order + kx) c.toList := by
  simp only [Kernel.cornerNode, Dimension.value, List.replicate, Lattice.unflatten,
    Nat.mul_add_mod_of_lt hkx, Lattice.place_div hkx, Nat.mul_add_mod_of_lt hky,
    Lattice.place_div hky, Nat.mod_eq_of_lt hkz, Lattice.shift, List.zipWith, Lattice.flatten,
    Cell.node, Corner.toList]
  ring

theorem sum_triplets {order : Nat} (metric : Nat → Nat → Sym3 K) (x y : Nat → K) :
    ((triplets order metric).map fun t => x t.row * t.value * y t.col).sum =
      ∑ kz ∈ range order, ∑ ky ∈ range order, ∑ kx ∈ range order, ∑ q ∈ range 8,
        (metric (kx + ky * order + kz * (order * order)) q).form
          (solidGradient (fun v => x (Kernel.cornerNode .three order
            ((kz * order + ky) * order + kx) v)) (q % 2) (q / 2 % 2) (q / 4))
          (solidGradient (fun v => y (Kernel.cornerNode .three order
            ((kz * order + ky) * order + kx) v)) (q % 2) (q / 2 % 2) (q / 4)) := by
  simp only [triplets, cells, sum_map_flatMap, List.map_map, Function.comp_def, sum_map_range,
    Cell.number]
  refine sum_congr rfl fun kz hkz => sum_congr rfl fun ky hky => sum_congr rfl fun kx hkx => ?_
  rw [mem_range] at hkx hky hkz
  rw [localMatrix_eq, zip_map_cornerPairs, List.map_map]
  simp only [Function.comp_def, node_eq hkx hky hkz, sum_map_range]
  calc _ = ∑ q ∈ range 8, (cornerPairs.map fun p =>
        x (Kernel.cornerNode .three order ((kz * order + ky) * order + kx) p.1.toList) *
          (metric (kx + ky * order + kz * (order * order)) q).form (gradient (corner q) p.1)
            (gradient (corner q) p.2) *
          y (Kernel.cornerNode .three order ((kz * order + ky) * order + kx) p.2.toList)).sum := by
        simp only [mul_sum, sum_mul, sum_map_sum]
    _ = _ := sum_congr rfl fun q hq => sum_cornerPairs _ (fun v => x _) (fun v => y _)
        (mem_range.mp hq)

end Stencil.Solid

/-! ### Elements of either dimension -/

/-- The contributions of an element sum to the energies of its sub-cells. -/
theorem Kernel.sum_nodeTriplets (dim : Dimension) {order : Nat} (horder : 0 < order)
    (terms : Array K) (x y : Nat → K) :
    ((nodeTriplets dim order terms).map fun t => x t.row * t.value * y t.col).sum =
      ∑ k ∈ range (order ^ dim.value), energy dim terms k
        (fun v => x (cornerNode dim order k v)) (fun v => y (cornerNode dim order k v)) := by
  cases dim with
  | two =>
    rw [nodeTriplets, Stencil.Planar.sum_triplets horder, Dimension.value, pow_two, sum_range_mul]
    refine sum_congr rfl fun ky _ => sum_congr rfl fun kx _ => ?_
    rw [Nat.add_comm kx]
    simp only [energy, sum_range_succ, sum_range_zero, Nat.reduceMod, Nat.reduceDiv, Nat.reduceAdd,
      Nat.reduceMul]
    ring
  | three =>
    rw [nodeTriplets, Stencil.Solid.sum_triplets, Dimension.value, pow_succ, pow_two,
      sum_range_mul, sum_range_mul]
    refine sum_congr rfl fun kz _ => sum_congr rfl fun ky _ => sum_congr rfl fun kx _ => ?_
    have hcell : kx + ky * order + kz * (order * order) = (kz * order + ky) * order + kx := by ring
    rw [hcell]
    rfl

end LowOrderRefinement
