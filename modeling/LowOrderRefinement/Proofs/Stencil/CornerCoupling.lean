import LowOrderRefinement.Proofs.Cell.MetricMatrix
import LowOrderRefinement.Proofs.Stencil.Neighbourhoods

/-! The energy of two corners of a sub-cell with one metric. The function of a corner is a
product of linear functions along the axes, so that its energy with that of another
corner splits into factors axis by axis. Along an axis on which neither derivative is
taken the factor is one if the corners agree and zero otherwise; the energy therefore
depends only on the displacement from one corner to the other, and there is none between
corners that differ along three axes. -/

namespace LowOrderRefinement

open Finset

variable {K : Type} [ExactField K]

/-! ### Pairs of corners -/

namespace Shape

theorem slope_eq_sub {p q : Nat} (hp : p < 2) (hq : q < 2) (h : p ≠ q) :
    (slope p : K) = (p : K) - q := by
  interval_cases p <;> interval_cases q <;> simp_all [slope]

theorem slope_mul_slope {p q : Nat} (hp : p < 2) (hq : q < 2) (h : p ≠ q) :
    (slope p * slope q : K) = -1 := by
  interval_cases p <;> interval_cases q <;> simp_all [slope]

def agree (p q : Nat) : K := if p = q then 1 else 0

section Coupling

variable {ι : Type} [Fintype ι]

/-- The axes along which two points differ. -/
def moved (v w : ι → Nat) : Finset ι := {c | v c ≠ w c}

theorem mem_moved {v w : ι → Nat} {c : ι} : c ∈ moved v w ↔ v c ≠ w c := by simp [moved]

variable [DecidableEq ι]

/-- What a pair of derivatives contributes to the energy of two corners: their slopes, doubled along
a common axis, if the corners agree along all other axes. -/
def slopes (v w : ι → Nat) (a b : ι) : K :=
  if moved v w ⊆ {a, b} then
    ((if a = b then 2 else 1 : Nat) : K) * (slope (v a) * slope (w b))
  else 0

/-- The energy of the functions of two corners under a metric. -/
def coupling (m : Matrix ι ι K) (v w : ι → Nat) : K := ∑ a, ∑ b, m a b * slopes v w a b

variable {m : Matrix ι ι K} {v w : ι → Nat}

theorem slopes_of_subset {a b : ι} (h : moved v w ⊆ {a, b}) (hab : a ≠ b) :
    (slopes v w a b : K) = slope (v a) * slope (w b) := by
  rw [slopes, if_pos h, if_neg hab, Nat.cast_one, one_mul]

theorem slopes_of_not_subset {a b : ι} (h : ¬moved v w ⊆ {a, b}) : (slopes v w a b : K) = 0 :=
  if_neg h

theorem slopes_eq_prod (v w : ι → Nat) (a b : ι) : (slopes v w a b : K) =
    (if a = b then 2 else 1) * (slope (v a) * slope (w b)) *
      ∏ c, if c = a ∨ c = b then 1 else agree (v c) (w c) := by
  have hprod : (∏ c, if c = a ∨ c = b then 1 else agree (v c) (w c) : K) =
      if moved v w ⊆ {a, b} then 1 else 0 := by
    have hfactor (c : ι) : (if c = a ∨ c = b then 1 else agree (v c) (w c) : K) =
        if v c ≠ w c → c ∈ ({a, b} : Finset ι) then 1 else 0 := by
      by_cases hc : c = a ∨ c = b <;> by_cases hvw : v c = w c <;> simp [hc, hvw, agree]
    simp only [hfactor, prod_boole, mem_univ, forall_const, subset_iff, mem_moved]
  rw [slopes, hprod, mul_ite, mul_one, mul_zero, Nat.cast_ite, Nat.cast_ofNat, Nat.cast_one]

/-- Two corners at the ends of an edge. The mixed derivatives cancel, because the corners agree
along the other axes. -/
theorem coupling_of_moved_one (hm : m.IsSymm) (hv : ∀ c, v c < 2) (hw : ∀ c, w c < 2) {a : ι}
    (h : moved v w = {a}) : coupling m v w = -2 * m a a := by
  have hne : v a ≠ w a := mem_moved.mp (h ▸ mem_singleton_self a)
  have heq {c : ι} (hc : c ≠ a) : v c = w c := by
    by_contra hmoved
    exact hc (mem_singleton.mp (h ▸ mem_moved.mpr hmoved))
  have hself : (slopes v w a a : K) = -2 := by
    rw [slopes, h, if_pos (by simp), if_pos rfl, slope_mul_slope (hv a) (hw a) hne]
    norm_num
  have hmixed (c : ι) (hc : c ∈ univ.erase a) :
      m a c * slopes v w a c + m c a * slopes v w c a = 0 := by
    have hc := ne_of_mem_erase hc
    rw [hm.apply, slopes_of_subset (by simp [h]) hc.symm, slopes_of_subset (by simp [h]) hc,
      ← heq hc, slope_eq_sub (hv a) (hw a) hne, slope_eq_sub (hw a) (hv a) hne.symm]
    ring
  have hrow (x : ι) (hx : x ∈ univ.erase a) :
      ∑ y, m x y * slopes v w x y = m x a * slopes v w x a := by
    have hx := ne_of_mem_erase hx
    refine Fintype.sum_eq_single a fun y hy => ?_
    rw [slopes_of_not_subset (by simp [h, hx.symm, hy.symm]), mul_zero]
  calc coupling m v w
      = ∑ y, m a y * slopes v w a y + ∑ x ∈ univ.erase a, m x a * slopes v w x a := by
        rw [coupling, ← add_sum_erase _ _ (mem_univ a), sum_congr rfl hrow]
    _ = m a a * slopes v w a a + ∑ c ∈ univ.erase a,
          (m a c * slopes v w a c + m c a * slopes v w c a) := by
        rw [← add_sum_erase _ _ (mem_univ a), add_assoc, sum_add_distrib]
    _ = -2 * m a a := by
        rw [sum_eq_zero hmixed, hself, add_zero, mul_comm]

/-- Two corners across a face. -/
theorem coupling_of_moved_two (hm : m.IsSymm) (hv : ∀ c, v c < 2) (hw : ∀ c, w c < 2) {a b : ι}
    (hab : a ≠ b) (h : moved v w = {a, b}) :
    coupling m v w = -2 * ((w a : K) - v a) * ((w b : K) - v b) * m a b := by
  have ha : v a ≠ w a := mem_moved.mp (h ▸ mem_insert_self a {b})
  have hb : v b ≠ w b := mem_moved.mp (h ▸ mem_insert_of_mem (mem_singleton_self b))
  have hrest (x : ι × ι) (hx : x ≠ (a, b) ∧ x ≠ (b, a)) :
      m x.1 x.2 * slopes v w x.1 x.2 = 0 := by
    obtain ⟨x, y⟩ := x
    rw [slopes_of_not_subset, mul_zero]
    rw [h]
    intro hsubset
    have hax := hsubset (mem_insert_self a {b})
    have hbx := hsubset (mem_insert_of_mem (mem_singleton_self b))
    simp only [mem_insert, mem_singleton] at hax hbx
    rcases hax with rfl | rfl <;> rcases hbx with rfl | rfl <;> simp_all
  have hfirst : (slopes v w a b : K) = slope (v a) * slope (w b) :=
    slopes_of_subset h.subset hab
  have hsecond : (slopes v w b a : K) = slope (v b) * slope (w a) :=
    slopes_of_subset (h.subset.trans (Finset.pair_comm a b).subset) hab.symm
  calc coupling m v w
      = m a b * slopes v w a b + m b a * slopes v w b a := by
        rw [coupling, ← Fintype.sum_prod_type' fun x y => m x y * slopes v w x y]
        exact Fintype.sum_eq_add (a, b) (b, a) (fun heq => hab (Prod.mk.inj heq).1) hrest
    _ = -2 * ((w a : K) - v a) * ((w b : K) - v b) * m a b := by
        rw [hfirst, hsecond, hm.apply, slope_eq_sub (hv a) (hw a) ha,
          slope_eq_sub (hw b) (hv b) hb.symm, slope_eq_sub (hv b) (hw b) hb,
          slope_eq_sub (hw a) (hv a) ha.symm]
        ring

theorem coupling_of_moved_three (h : 2 < #(moved v w)) : coupling m v w = 0 := by
  refine sum_eq_zero fun a _ => sum_eq_zero fun b _ => ?_
  rw [slopes_of_not_subset, mul_zero]
  intro hsubset
  exact absurd ((card_le_card hsubset).trans card_le_two) (Nat.not_le.mpr h)

end Coupling

end Shape

/-! ### Corners of a sub-cell -/

def Lattice.along {d : Nat} (point : List Nat) (axis : Fin d) : Nat := point.getD axis 0

theorem Shape.single_square {a b : Nat} (ha : a < 2) (hb : b < 2) :
    ∀ p ∈ vertices .two, (Pi.single [a, b] 1 : List Nat → K) p =
      value (p.getD 0 0) (a : K) * value (p.getD 1 0) (b : K) := by
  simp only [vertices, squareVertices, List.map_cons, List.map_nil, List.forall_mem_cons]
  interval_cases a <;> interval_cases b <;> simp [value]

theorem Shape.single_cube {a b c : Nat} (ha : a < 2) (hb : b < 2) (hc : c < 2) :
    ∀ p ∈ vertices .three, (Pi.single [a, b, c] 1 : List Nat → K) p =
      value (p.getD 0 0) (a : K) * value (p.getD 1 0) (b : K) * value (p.getD 2 0) (c : K) := by
  simp only [vertices, cubeVertices, List.map_cons, List.map_nil, List.forall_mem_cons]
  interval_cases a <;> interval_cases b <;> interval_cases c <;> simp [value]

theorem Shape.slope_eq {a : Nat} (ha : a < 2) : (slope a : K) = 2 * a - 1 := by
  interval_cases a <;> norm_num [slope]

theorem Shape.agree_eq {a b : Nat} (ha : a < 2) (hb : b < 2) :
    (agree a b : K) = 1 - a - b + 2 * a * b := by
  interval_cases a <;> interval_cases b <;> norm_num [agree]

theorem Shape.coupling_two (m : Matrix (Fin 2) (Fin 2) K) (v w : Fin 2 → Nat) :
    coupling m v w =
      m 0 0 * (2 * (slope (v 0) * slope (w 0)) * agree (v 1) (w 1)) +
        m 0 1 * (slope (v 0) * slope (w 1)) + (m 1 0 * (slope (v 1) * slope (w 0)) +
          m 1 1 * (2 * (slope (v 1) * slope (w 1)) * agree (v 0) (w 0))) := by
  simp [coupling, slopes_eq_prod, Fin.sum_univ_two, Fin.prod_univ_two]

theorem Shape.coupling_three (m : Matrix (Fin 3) (Fin 3) K) (v w : Fin 3 → Nat) :
    coupling m v w =
      m 0 0 * (2 * (slope (v 0) * slope (w 0)) * (agree (v 1) (w 1) * agree (v 2) (w 2))) +
        m 0 1 * (slope (v 0) * slope (w 1) * agree (v 2) (w 2)) +
        m 0 2 * (slope (v 0) * slope (w 2) * agree (v 1) (w 1)) +
      (m 1 0 * (slope (v 1) * slope (w 0) * agree (v 2) (w 2)) +
        m 1 1 * (2 * (slope (v 1) * slope (w 1)) * (agree (v 0) (w 0) * agree (v 2) (w 2))) +
        m 1 2 * (slope (v 1) * slope (w 2) * agree (v 0) (w 0))) +
      (m 2 0 * (slope (v 2) * slope (w 0) * agree (v 1) (w 1)) +
        m 2 1 * (slope (v 2) * slope (w 1) * agree (v 0) (w 0)) +
        m 2 2 * (2 * (slope (v 2) * slope (w 2)) * (agree (v 0) (w 0) * agree (v 1) (w 1)))) := by
  simp [coupling, slopes_eq_prod, Fin.sum_univ_three, Fin.prod_univ_three]

namespace Kernel

variable {terms : Array K} {cell : Nat}

theorem energy_square {m : Sym2 K} (hm : ∀ q < 4, planarMetric terms cell q = m) {a b c d : Nat}
    (ha : a < 2) (hb : b < 2) (hc : c < 2) (hd : d < 2) :
    energy .two terms cell (Pi.single [a, b] 1) (Pi.single [c, d] 1) =
      Shape.coupling m.toMatrix (Lattice.along [a, b]) (Lattice.along [c, d]) := by
  have hpoint : ∀ q ∈ range 4, planarMetric terms cell q = m := fun q hq => hm q (mem_range.mp hq)
  rw [energy_congr (Shape.single_square ha hb) (Shape.single_square hc hd), energy,
    sum_congr rfl fun q hq => by rw [hpoint q hq], Shape.coupling_two]
  simp only [sum_range_succ, sum_range_zero, planarGradient, Sym2.form, Shape.value,
    Nat.reduceMod, Nat.reduceDiv, List.getD_cons_zero, List.getD_cons_succ, if_true, one_ne_zero,
    if_false, Sym2.toMatrix, Matrix.of_apply, Matrix.cons_val, Lattice.along, Fin.isValue,
    Fin.coe_ofNat_eq_mod, Shape.slope_eq, Shape.agree_eq, ha, hb, hc, hd]
  ring

theorem energy_cube {m : Sym3 K} (hm : ∀ q < 8, solidMetric terms cell q = m) {a b c d e f : Nat}
    (ha : a < 2) (hb : b < 2) (hc : c < 2) (hd : d < 2) (he : e < 2) (hf : f < 2) :
    energy .three terms cell (Pi.single [a, b, c] 1) (Pi.single [d, e, f] 1) =
      Shape.coupling m.toMatrix (Lattice.along [a, b, c]) (Lattice.along [d, e, f]) := by
  have hpoint : ∀ q ∈ range 8, solidMetric terms cell q = m := fun q hq => hm q (mem_range.mp hq)
  rw [energy_congr (Shape.single_cube ha hb hc) (Shape.single_cube hd he hf), energy,
    sum_congr rfl fun q hq => by rw [hpoint q hq], Shape.coupling_three]
  simp only [sum_range_succ, sum_range_zero, solidGradient, Sym3.form, Shape.value,
    Nat.reduceMod, Nat.reduceDiv, List.getD_cons_zero, List.getD_cons_succ, if_true, one_ne_zero,
    if_false, Sym3.toMatrix, Matrix.of_apply, Matrix.cons_val, Lattice.along, Fin.isValue,
    Fin.coe_ofNat_eq_mod, Shape.slope_eq, Shape.agree_eq, ha, hb, hc, hd, he, hf]
  ring

/-- With one metric, the energy of two corners is their coupling. -/
theorem energy_corners {dim : Dimension} {m : Matrix (Fin dim.value) (Fin dim.value) K}
    (hm : ∀ q < dim.vertices, metric dim terms cell q = m) {v w : List Nat}
    (hv : v ∈ Shape.vertices dim) (hw : w ∈ Shape.vertices dim) :
    energy dim terms cell (Pi.single v 1) (Pi.single w 1) =
      Shape.coupling m (Lattice.along v) (Lattice.along w) := by
  cases dim with
  | two =>
    obtain ⟨a, ha, b, hb, rfl⟩ :=
      (Shape.exists_mem_vertices_two (p := fun u => u = v)).mp ⟨v, hv, rfl⟩
    obtain ⟨c, hc, d, hd, rfl⟩ :=
      (Shape.exists_mem_vertices_two (p := fun u => u = w)).mp ⟨w, hw, rfl⟩
    obtain rfl := hm 0 (by decide)
    exact energy_square (fun q hq => Sym2.toMatrix_inj (hm q hq)) ha hb hc hd
  | three =>
    obtain ⟨c, hc, rfl⟩ :=
      (Stencil.Solid.exists_mem_vertices (p := fun u => u = v)).mp ⟨v, hv, rfl⟩
    obtain ⟨d, hd, rfl⟩ :=
      (Stencil.Solid.exists_mem_vertices (p := fun u => u = w)).mp ⟨w, hw, rfl⟩
    obtain ⟨hcx, hcy, hcz⟩ := Stencil.Solid.mem_corners.mp hc
    obtain ⟨hdx, hdy, hdz⟩ := Stencil.Solid.mem_corners.mp hd
    obtain rfl := hm 0 (by decide)
    exact energy_cube (fun q hq => Sym3.toMatrix_inj (hm q hq)) hcx hcy hcz hdx hdy hdz

end Kernel

end LowOrderRefinement
