import LowOrderRefinement.Proofs.Assembly.Assembled

/-! The bilinear form of an assembled matrix. Before elimination it is the sum, over all
sub-cells, of the energies of two vectors at the corners of the sub-cell. The
metrics in these energies are those of the Jacobians of the sub-cell itself, found
at its place in its element, and are positive definite. -/

namespace LowOrderRefinement

open Finset

variable {K : Type} [ExactField K]

/-! ### Quadrature points -/

namespace Quadrature

/-- The quadrature point of a square with the given number. -/
def planarPoint (q : Nat) : Vec2 K := ⟨(q % 2 : Nat), (q / 2 : Nat)⟩

def solidPoint (q : Nat) : Vec3 K := ⟨(q % 2 : Nat), (q / 2 % 2 : Nat), (q / 4 : Nat)⟩

theorem getElem?_square {q : Nat} (hq : q < 4) :
    (square : List (K × Vec2 K))[q]? = some (1 / 4, planarPoint q) := by
  interval_cases q <;> simp [square, interval, planarPoint, ExactField.half_eq] <;> norm_num

theorem getElem?_cube {q : Nat} (hq : q < 8) :
    (cube : List (K × Vec3 K))[q]? = some (1 / 8, solidPoint q) := by
  interval_cases q <;> simp [cube, interval, solidPoint, ExactField.half_eq] <;> norm_num

end Quadrature

/-! ### Metrics of a sub-cell -/

section Metrics

variable {α σ : Type} [Scalar α]

/-- Metrics that are stored by their components, point by point and sub-cell by sub-cell, are read
off the places where a kernel looks for them. -/
theorem Kernel.components_eq {toList : σ → List α} {n points : Nat}
    (hlength : ∀ m, (toList m).length = n) {terms : Array α} {metrics : List σ} {cell q : Nat}
    {metric : σ} (hq : q < points) (hmetric : metrics[q]? = some metric)
    (hstored : ∀ i < n * points,
      terms[cell * (n * points) + i]? = (metrics.flatMap toList)[i]?) :
    ((List.range n).map fun c => terms.getD (n * (q + points * cell) + c) 0) = toList metric := by
  refine List.ext_getElem (by simp [hlength]) fun c hc hc' => ?_
  have hc : c < n := hlength metric ▸ hc'
  have hplace : n * (q + points * cell) + c = cell * (n * points) + (q * n + c) := by ring
  have hlt : q * n + c < n * points := by
    rw [Nat.mul_comm n]
    exact Lattice.place_lt hq hc
  rw [List.getElem_map, List.getElem_range, Array.getD_eq_getD_getElem?, hplace, hstored _ hlt,
    getElem?_flatMap_blocks (fun m _ => hlength m) hc, hmetric, Option.bind_some,
    List.getElem?_eq_getElem hc', Option.getD_some]

theorem Kernel.planarMetric_eq {terms : Array α} {metrics : List (Sym2 α)} {cell q : Nat}
    {metric : Sym2 α} (hq : q < 4) (hmetric : metrics[q]? = some metric)
    (hstored : ∀ i < 12, terms[cell * 12 + i]? = (metrics.flatMap Sym2.toList)[i]?) :
    planarMetric terms cell q = metric := by
  have hread := components_eq (n := 3) (fun _ : Sym2 α => rfl) hq hmetric hstored
  exact Sym2.toList_inj hread

theorem Kernel.solidMetric_eq {terms : Array α} {metrics : List (Sym3 α)} {cell q : Nat}
    {metric : Sym3 α} (hq : q < 8) (hmetric : metrics[q]? = some metric)
    (hstored : ∀ i < 48, terms[cell * 48 + i]? = (metrics.flatMap Sym3.toList)[i]?) :
    solidMetric terms cell q = metric := by
  have hread := components_eq (n := 6) (fun _ : Sym3 α => rfl) hq hmetric hstored
  exact Sym3.toList_inj hread

end Metrics

namespace Refinement

variable {r : Refinement K} {order elements : Nat} {source : JacobianSource K} {m : MetricArray K}

/-- The planar metrics of a sub-cell are those of its Jacobians. -/
theorem Evaluated.planar (h : r.Evaluated .two order elements source m) {s : Nat}
    (hs : s < r.subcells) :
    ∃ cell, r.quadrilateral s = .ok cell ∧ ∀ q < 4, ∃ j,
      source.planar cell s q (Quadrature.planarPoint q) = .ok j ∧
      Metric.planar j (1 / 4) = .ok (Kernel.planarMetric (m.terms (r.embedding s).parent)
        (r.embedding s).offset q) := by
  obtain ⟨terms, hterms, hstored⟩ := h.stored s hs
  obtain ⟨cell, hcell, metrics, hmetrics, rfl⟩ := terms_eq_ok.mp hterms
  refine ⟨cell, hcell, fun q hq => ?_⟩
  obtain ⟨metric, hmetric, hat⟩ :=
    getElem?_of_mapM_zipIdx_eq_ok hmetrics (Quadrature.getElem?_square hq)
  obtain ⟨j, hj, hplanar⟩ := bind_eq_ok.mp hat
  rw [Kernel.planarMetric_eq hq hmetric hstored]
  exact ⟨j, hj, accept_eq_ok.mp hplanar⟩

theorem Evaluated.solid (h : r.Evaluated .three order elements source m) {s : Nat}
    (hs : s < r.subcells) :
    ∃ cell, r.hexahedron s = .ok cell ∧ ∀ q < 8,
      Metric.solid (cell.jacobian (Quadrature.solidPoint q)) (1 / 8) =
        .ok (Kernel.solidMetric (m.terms (r.embedding s).parent) (r.embedding s).offset q) := by
  obtain ⟨terms, hterms, hstored⟩ := h.stored s hs
  obtain ⟨cell, hcell, metrics, hmetrics, rfl⟩ := terms_eq_ok.mp hterms
  refine ⟨cell, hcell, fun q hq => ?_⟩
  obtain ⟨metric, hmetric, hat⟩ :=
    getElem?_of_mapM_zipIdx_eq_ok hmetrics (Quadrature.getElem?_cube hq)
  rw [Kernel.solidMetric_eq hq hmetric hstored]
  exact accept_eq_ok.mp hat

theorem Evaluated.elliptic {dim : Dimension} (h : r.Evaluated dim order elements source m)
    {s : Nat} (hs : s < r.subcells) :
    Kernel.Elliptic dim (m.terms (r.embedding s).parent) (r.embedding s).offset := by
  cases dim with
  | two =>
    intro q hq
    obtain ⟨cell, -, hcell⟩ := h.planar hs
    obtain ⟨j, -, hmetric⟩ := hcell q hq
    exact Metric.posDef_planar (by norm_num) hmetric
  | three =>
    intro q hq
    obtain ⟨cell, -, hcell⟩ := h.solid hs
    exact Metric.posDef_solid (by norm_num) (hcell q hq)

/-! ### Sums over sub-cells -/

omit [ExactField K] in
/-- A sum over the places of all elements is a sum over the sub-cells that take them. -/
theorem Covers.sum_embedding {M : Type} [AddCommMonoid M] {dim : Dimension} {perElement : Nat}
    (h : r.Covers dim elements perElement) (f : Nat → Nat → M) :
    ∑ e ∈ range elements, ∑ k ∈ range perElement, f e k =
      ∑ s ∈ range r.subcells, f (r.embedding s).parent (r.embedding s).offset := by
  rw [← sum_product' (range elements) (range perElement) f]
  symm
  refine sum_bij (fun s _ => ((r.embedding s).parent, (r.embedding s).offset)) (fun s hs => ?_)
    (fun s hs t ht heq => ?_) (fun place hplace => ?_) fun s _ => rfl
  · have hplaced := h.placed s (mem_range.mp hs)
    exact mem_product.mpr ⟨mem_range.mpr hplaced.parent_lt, mem_range.mpr hplaced.offset_lt⟩
  · obtain ⟨hparent, hoffset⟩ := Prod.mk.inj heq
    exact h.embedding_inj s (mem_range.mp hs) t (mem_range.mp ht)
      (by cases hs' : r.embedding s; cases ht' : r.embedding t; simp_all)
  · obtain ⟨hparent, hoffset⟩ := mem_product.mp hplace
    obtain ⟨s, hs, hembedding⟩ := h.exists_embedding place.1 (mem_range.mp hparent) place.2
      (mem_range.mp hoffset)
    exact ⟨s, mem_range.mpr hs, by rw [hembedding]⟩

omit [ExactField K] in
/-- The degree of freedom at a corner of a sub-cell. -/
def cornerDof (r : Refinement K) (space : Space) (dim : Dimension) (subcell : Nat)
    (corner : List Nat) : Nat :=
  space.dofAt (r.embedding subcell).parent
    (Kernel.cornerNode dim space.order (r.embedding subcell).offset corner)

def energy (r : Refinement K) (space : Space) (dim : Dimension) (m : MetricArray K)
    (x y : Nat → K) (subcell : Nat) : K :=
  Kernel.energy dim (m.terms (r.embedding subcell).parent) (r.embedding subcell).offset
    (fun c => x (r.cornerDof space dim subcell c)) (fun c => y (r.cornerDof space dim subcell c))

end Refinement

namespace Assembly

variable {r : Refinement K} {space : Space} {essential : List Nat} {options : Options K}
  {dim : Dimension} {source : JacobianSource K} {m : MetricArray K} {a : Csr K}

/-- The bilinear form of all contributions is the total energy of the sub-cells. -/
theorem Assembled.form_sum (h : Assembled r space essential options dim source m a)
    (x y : Nat → K) :
    (Csr.ofTriplets space.numDofs space.numDofs (space.allTriplets dim m).toArray).form x y =
      ∑ s ∈ range r.subcells, r.energy space dim m x y s := by
  have hcovers := h.evaluated.covers.sum_embedding fun e k =>
    Kernel.energy dim (m.terms e) k
      (fun c => x (space.dofAt e (Kernel.cornerNode dim space.order k c)))
      (fun c => y (space.dofAt e (Kernel.cornerNode dim space.order k c)))
  rw [Csr.form_ofTriplets _ _ h.allTriplets_lt, Space.allTriplets, sum_map_flatMap, sum_map_range]
  refine Eq.trans (sum_congr rfl fun e _ => ?_) hcovers
  rw [Space.elementTriplets, List.map_map]
  exact Kernel.sum_nodeTriplets dim h.checks.order_pos (m.terms e)
    (fun node => x (space.dofAt e node)) (fun node => y (space.dofAt e node))

end Assembly

end LowOrderRefinement
