import Mathlib.Data.List.Nodup
import LowOrderRefinement.Proofs.BoxMesh.MeshPattern
import LowOrderRefinement.Proofs.Assembly.Semidefinite

/-! Symmetry of assembled matrices. In exact arithmetic an entry and its transpose are equal
for every input. In the plane this needs no more than that the two operands of a sum or
a product can be exchanged: the sub-cells between two nodes are visited in one order,
whichever node comes first, and so are the elements. An element with distinct
degrees of freedom then contributes the same values, in the same order, to an entry
and to its transpose. -/

namespace LowOrderRefinement

variable {α : Type}

/-- Arithmetic in which operands can be exchanged. Neither sums nor products need be associative,
and products need not distribute over sums. -/
structure Scalar.Commutes (α : Type) [Scalar α] : Prop where
  add_comm : ∀ x y : α, x + y = y + x
  mul_comm : ∀ x y : α, x * y = y * x

/-! ### One element -/

theorem filter_eq_singleton {β : Type} {xs : List β} (hxs : xs.Nodup) {x : β} (hx : x ∈ xs)
    {p : β → Bool} (hp : ∀ y ∈ xs, p y ↔ y = x) : xs.filter p = [x] := by
  apply List.perm_singleton.mp
  rw [List.perm_ext_iff_of_nodup (hxs.filter p) (List.nodup_singleton x)]
  intro y
  rw [List.mem_filter, List.mem_singleton]
  constructor
  · rintro ⟨hy, hpy⟩
    exact (hp y hy).mp hpy
  · rintro rfl
    exact ⟨hx, (hp y hx).mpr rfl⟩

namespace Stencil.Planar

theorem support_comm (order : Nat) (i j : Node) : support order i j = support order j i := by
  rw [support, support, Hat.sharedCells_comm i.x, Hat.sharedCells_comm i.y]

def pairs (order : Nat) : List (Node × Node) :=
  (nodes order).flatMap fun i => (neighbours order i).map fun j => (i, j)

theorem mem_pairs {order : Nat} {p : Node × Node} :
    p ∈ pairs order ↔ p.1 ∈ nodes order ∧ p.2 ∈ neighbours order p.1 := by
  simp only [pairs, List.mem_flatMap, List.mem_map]
  constructor
  · rintro ⟨i, hi, j, hj, rfl⟩
    exact ⟨hi, hj⟩
  · rintro ⟨hi, hj⟩
    exact ⟨p.1, hi, p.2, hj, rfl⟩

theorem swap_mem_pairs {order : Nat} {p : Node × Node} (h : p ∈ pairs order) :
    p.swap ∈ pairs order := by
  obtain ⟨hi, hj⟩ := mem_pairs.mp h
  have hj' := mem_nodes_of_coupled hi hj
  obtain ⟨hix, hiy⟩ := mem_nodes.mp hi
  obtain ⟨hjx, hjy⟩ := mem_nodes.mp hj'
  obtain ⟨hx, hy⟩ := mem_coupled.mp hj
  refine mem_pairs.mpr ⟨hj', mem_coupled.mpr ⟨?_, ?_⟩⟩
  · obtain ⟨-, hle, hge⟩ := (Hat.mem_neighbours hix).mp hx
    exact (Hat.mem_neighbours hjx).mpr ⟨hix, hge, hle⟩
  · obtain ⟨-, hle, hge⟩ := (Hat.mem_neighbours hiy).mp hy
    exact (Hat.mem_neighbours hjy).mpr ⟨hiy, hge, hle⟩

theorem nodup_nodes (order : Nat) : (nodes order).Nodup :=
  nodup_flatMap_map (fun h => (Node.mk.inj h).symm) List.nodup_range fun _ _ => List.nodup_range

theorem nodup_neighbours (order : Nat) (i : Node) : (neighbours order i).Nodup :=
  nodup_flatMap_map Node.mk.inj List.nodup_range' fun _ _ => List.nodup_range'

theorem nodup_pairs (order : Nat) : (pairs order).Nodup :=
  nodup_flatMap_map Prod.mk.inj (nodup_nodes order) fun i _ => nodup_neighbours order i

theorem number_inj {order : Nat} {m n : Node} (hm : m ∈ nodes order) (hn : n ∈ nodes order)
    (h : m.number order = n.number order) : m = n := by
  obtain ⟨hmx, hmy⟩ := mem_nodes.mp hm
  obtain ⟨hnx, hny⟩ := mem_nodes.mp hn
  rw [Node.number, Node.number, Nat.add_comm m.x, Nat.add_comm n.x] at h
  obtain ⟨hy, hx⟩ := Lattice.place_inj hmx hnx h
  cases m
  cases n
  exact Node.mk.injEq .. ▸ ⟨hx, hy⟩

/-- The pairs of nodes that contribute to an entry when the numbers of nodes are renamed. -/
def pairsTo (order : Nat) (f : Nat → Nat) (i j : Nat) : List (Node × Node) :=
  (pairs order).filter fun p => f (p.1.number order) = i ∧ f (p.2.number order) = j

/-- Under distinct new numbers an entry has at most one pair. -/
theorem pairsTo_eq_singleton {order : Nat} {f : Nat → Nat}
    (hf : ∀ m < (order + 1) ^ 2, ∀ n < (order + 1) ^ 2, f m = f n → m = n) {p : Node × Node}
    (hp : p ∈ pairs order) :
    pairsTo order f (f (p.1.number order)) (f (p.2.number order)) = [p] := by
  refine filter_eq_singleton (nodup_pairs order) hp fun q hq => ?_
  obtain ⟨hp1, hp2⟩ := mem_pairs.mp hp
  obtain ⟨hq1, hq2⟩ := mem_pairs.mp hq
  have hp2 := mem_nodes_of_coupled hp1 hp2
  have hq2 := mem_nodes_of_coupled hq1 hq2
  rw [decide_eq_true_iff]
  constructor
  · rintro ⟨h1, h2⟩
    exact Prod.ext (number_inj hq1 hp1 (hf _ (number_lt hq1) _ (number_lt hp1) h1))
      (number_inj hq2 hp2 (hf _ (number_lt hq2) _ (number_lt hp2) h2))
  · rintro rfl
    exact ⟨rfl, rfl⟩

variable [Scalar α]

theorem accumulate_comm (h : Scalar.Commutes α) (acc : α) (u v : Vec2 α) (m : Sym2 α) :
    accumulate acc u v m = accumulate acc v u m := by
  rw [accumulate, accumulate, h.mul_comm u.x v.x, h.mul_comm u.y v.y,
    h.add_comm (u.y * v.x) (u.x * v.y), h.mul_comm u.x v.y, h.mul_comm u.y v.x]

/-- A pair of nodes has one value, whichever node comes first. -/
theorem coupling_comm (h : Scalar.Commutes α) (order : Nat) (metric : Nat → Nat → Sym2 α)
    (i j : Node) : coupling order metric i j = coupling order metric j i := by
  rw [coupling, coupling, support_comm]
  congr 1
  funext acc s
  exact accumulate_comm h acc _ _ _

theorem contributed_eq_map (order : Nat) (metric : Nat → Nat → Sym2 α) (f : Nat → Nat)
    (i j : Nat) : contributed ((triplets order metric).map (·.relabel f)) i j =
      (pairsTo order f i j).map fun p => coupling order metric p.1 p.2 := by
  have htriplets : triplets order metric = (pairs order).map fun p =>
      ⟨p.1.number order, p.2.number order, coupling order metric p.1 p.2⟩ := by
    simp only [triplets, pairs, List.map_flatMap, List.map_map, Function.comp_def]
  simp only [contributed, htriplets, List.map_map, List.filter_map, Function.comp_def,
    Triplet.relabel, pairsTo]

/-- At distinct degrees of freedom an element contributes alike to an entry and its transpose. -/
theorem contributed_comm (h : Scalar.Commutes α) {order : Nat} (metric : Nat → Nat → Sym2 α)
    {f : Nat → Nat}
    (hf : ∀ m < (order + 1) ^ 2, ∀ n < (order + 1) ^ 2, f m = f n → m = n) (i j : Nat) :
    contributed ((triplets order metric).map (·.relabel f)) i j =
      contributed ((triplets order metric).map (·.relabel f)) j i := by
  rw [contributed_eq_map, contributed_eq_map]
  by_cases hp : ∃ p ∈ pairs order, f (p.1.number order) = i ∧ f (p.2.number order) = j
  · obtain ⟨p, hp, rfl, rfl⟩ := hp
    have hswap := pairsTo_eq_singleton hf (swap_mem_pairs hp)
    rw [Prod.fst_swap, Prod.snd_swap] at hswap
    rw [pairsTo_eq_singleton hf hp, hswap]
    exact congrArg (fun v => [v]) (coupling_comm h order metric p.1 p.2)
  · have hnone : pairsTo order f i j = [] := by
      refine List.filter_eq_nil_iff.mpr fun p hmem hgoes => hp ⟨p, hmem, ?_⟩
      simpa using hgoes
    have hnone' : pairsTo order f j i = [] := by
      refine List.filter_eq_nil_iff.mpr fun p hmem hgoes => hp ⟨p.swap, swap_mem_pairs hmem, ?_⟩
      simpa [and_comm] using hgoes
    rw [hnone, hnone']

end Stencil.Planar

theorem Space.dofAt_inj {space : Space} {nodes element : Nat} (h : space.Accepts nodes element)
    (hordering : space.ordering.toList.Perm (List.range nodes))
    (hnodup : (space.dofs element).toList.Nodup) {m n : Nat} (hm : m < nodes) (hn : n < nodes)
    (heq : space.dofAt element m = space.dofAt element n) : m = n := by
  obtain ⟨p, hp, hpm⟩ := exists_place h hordering hm
  obtain ⟨q, hq, hqn⟩ := exists_place h hordering hn
  have hplt : p < (space.dofs element).size := (Array.getElem?_eq_some_iff.mp hpm).1
  have hmlt : m < space.ordering.size := (Array.getElem?_eq_some_iff.mp hp).1
  rw [heq, ← hqn, ← Array.getElem?_toList, ← Array.getElem?_toList] at hpm
  obtain rfl : p = q := (List.getElem?_inj hplt hnodup).mp hpm
  rw [← hq, ← Array.getElem?_toList, ← Array.getElem?_toList] at hp
  exact (List.getElem?_inj hmlt (hordering.nodup_iff.mpr List.nodup_range)).mp hp

/-! ### The matrix -/

theorem Csr.entry?_eq_value {K : Type} [ExactField K] (m : Csr K) (i j : Nat) :
    m.entry? i j = if j ∈ m.columns i then some (m.value i j) else none := by
  by_cases h : j ∈ m.columns i
  · obtain ⟨v, hv⟩ := Option.isSome_iff_exists.mp ((m.isSome_entry? i j).mpr h)
    rw [if_pos h, Csr.value, hv, Option.getD_some]
  · rw [if_neg h]
    exact Option.not_isSome_iff_eq_none.mp fun hs => h ((m.isSome_entry? i j).mp hs)

namespace Assembly

section Any

variable [Scalar α] {r : Refinement α} {space : Space} {essential : List Nat}
  {options : Options α} {dim : Dimension} {source : JacobianSource α} {m : MetricArray α}
  {a : Csr α}

theorem Contributing.exists_mem_comm (h : Contributing r space options dim source m)
    {i j : Nat} : (∃ t ∈ space.allTriplets dim m, t.row = i ∧ t.col = j) ↔
      ∃ t ∈ space.allTriplets dim m, t.row = j ∧ t.col = i := by
  rw [h.exists_mem_iff, h.exists_mem_iff]
  constructor
  · rintro ⟨s, hs, v, hv, w, hw, hi, hj⟩
    exact ⟨s, hs, w, hw, v, hv, hj, hi⟩
  · rintro ⟨s, hs, v, hv, w, hw, hj, hi⟩
    exact ⟨s, hs, w, hw, v, hv, hi, hj⟩

theorem Assembled.mem_columns_comm (h : Assembled r space essential options dim source m a)
    {i j : Nat} : j ∈ a.columns i ↔ i ∈ a.columns j := by
  rw [h.mem_columns_iff, h.mem_columns_iff, ← h.exists_mem_iff, ← h.exists_mem_iff]
  exact h.exists_mem_comm

theorem Assembled.entry?_eq (h : Assembled r space essential options dim source m a) (i j : Nat) :
    a.entry? i j =
      ((contributed (space.allTriplets dim m) i j).foldl contribute none).map fun v =>
        if i ≠ j ∧ (cleared space essential i || cleared space essential j) then 0 else v := by
  rw [h.eq_clear, Csr.entry?_clear, contributionSum,
    Csr.entry?_ofTriplets fun t ht => (h.allTriplets_lt t ht).1]

/-- Over elements with distinct degrees of freedom, the same values arrive in the same order at an
entry and at its transpose, as soon as operands can be exchanged. -/
theorem Contributing.contributed_comm (h : Contributing r space options .two source m)
    (hα : Scalar.Commutes α) (hnodup : ∀ e < space.elements, (space.dofs e).toList.Nodup)
    (i j : Nat) : contributed (space.allTriplets .two m) i j =
      contributed (space.allTriplets .two m) j i := by
  have helement : ∀ e ∈ List.range space.elements,
      contributed (space.elementTriplets .two m e) i j =
        contributed (space.elementTriplets .two m e) j i := by
    intro e he
    rw [List.mem_range] at he
    refine Stencil.Planar.contributed_comm hα _ (fun k hk n hn => ?_) i j
    exact Space.dofAt_inj (h.accepts e he) h.checks.ordering_perm (hnodup e he) hk hn
  rw [Space.allTriplets, contributed_flatMap, contributed_flatMap, List.flatMap_congr helement]

theorem cleared_comm (space : Space) (essential : List Nat) (i j : Nat) :
    (i ≠ j ∧ (cleared space essential i || cleared space essential j)) ↔
      (j ≠ i ∧ (cleared space essential j || cleared space essential i)) := by
  rw [Bool.or_comm, ne_comm]

theorem Assembled.entry?_comm_of_contributed
    (h : Assembled r space essential options dim source m a) {i j : Nat}
    (hsum : contributed (space.allTriplets dim m) i j = contributed (space.allTriplets dim m) j i) :
    a.entry? i j = a.entry? j i := by
  rw [h.entry?_eq, h.entry?_eq, hsum]
  congr 1
  funext v
  exact if_congr (cleared_comm space essential i j) rfl rfl

end Any

/-- In exact arithmetic every matrix is symmetric. -/
theorem Assembled.entry?_comm {K : Type} [ExactField K] {r : Refinement K} {space : Space}
    {essential : List Nat} {options : Options K} {dim : Dimension} {source : JacobianSource K}
    {m : MetricArray K} {a : Csr K} (h : Assembled r space essential options dim source m a)
    (i j : Nat) : a.entry? i j = a.entry? j i := by
  rw [Csr.entry?_eq_value, Csr.entry?_eq_value]
  by_cases hj : j ∈ a.columns i
  · have hi := h.mem_columns_comm.mp hj
    rw [if_pos hj, if_pos hi, h.value_comm (h.nrows_eq ▸ Csr.lt_of_mem_columns hj)
      (h.nrows_eq ▸ Csr.lt_of_mem_columns hi)]
  · rw [if_neg hj, if_neg fun hi => hj (h.mem_columns_comm.mpr hi)]

/-- Numbers with a fixed point, as multiples of one sixteenth. Products and quotients are rounded
down. -/
structure Sixteenths where
  count : Int

instance : Scalar Sixteenths where
  add x y := ⟨x.count + y.count⟩
  sub x y := ⟨x.count - y.count⟩
  mul x y := ⟨x.count * y.count / 16⟩
  div x y := ⟨16 * x.count / y.count⟩
  neg x := ⟨-x.count⟩
  zero := ⟨0⟩
  one := ⟨16⟩
  half := ⟨8⟩
  sqrt x := x
  isPos x := decide (0 < x.count)
  le x y := decide (x.count ≤ y.count)
  ofNat n := ⟨16 * n⟩
  recip n := ⟨16 / n⟩

theorem Sixteenths.commutes : Scalar.Commutes Sixteenths where
  add_comm x y := congrArg Sixteenths.mk (Int.add_comm x.count y.count)
  mul_comm x y := congrArg (fun c => Sixteenths.mk (c / 16)) (Int.mul_comm x.count y.count)

/-- A unit square and a trapezoid beside it, in sixteenths. -/
def fixedSquares : Refinement Sixteenths :=
  .ofTable 2 #[⟨.quadrilateral, ⟨0, 0⟩, [⟨0⟩, ⟨0⟩, ⟨16⟩, ⟨0⟩, ⟨16⟩, ⟨16⟩, ⟨0⟩, ⟨16⟩]⟩,
    ⟨.quadrilateral, ⟨1, 0⟩, [⟨16⟩, ⟨0⟩, ⟨32⟩, ⟨0⟩, ⟨27⟩, ⟨16⟩, ⟨16⟩, ⟨16⟩]⟩] none

end Assembly

end LowOrderRefinement
