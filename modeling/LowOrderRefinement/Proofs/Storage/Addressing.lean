import Mathlib.Data.Set.Function
import Mathlib.Order.CompletePartialOrder
import Mathlib.Order.SuccPred.IntervalSucc
import LowOrderRefinement.Proofs.BoxMesh.ElementNodes
import LowOrderRefinement.Proofs.Evaluation.PointTerms

/-! All ways to address one storage agree. The indices in the range of a layout are numbered
without gap or repetition, in the order of their last coordinates first. In an array of
metric terms a term is therefore found by its index, among the terms of its sub-cell and
among those of its element, the sub-cells divide the storage into blocks that lie one
behind the other, and a term that is written is the only one that changes. -/

namespace LowOrderRefinement

variable {α : Type}

/-! ### Order and number -/

theorem append_singleton_lt_iff {is js : List Nat} {i j : Nat} (h : is.length = js.length) :
    is ++ [i] < js ++ [j] ↔ is < js ∨ is = js ∧ i < j := by
  induction is generalizing js with
  | nil =>
    obtain rfl : js = [] := List.length_eq_zero_iff.mp h.symm
    simp [List.cons_lt_cons_iff]
  | cons a is ih =>
    obtain ⟨b, js, rfl⟩ := List.exists_cons_of_length_eq_add_one h.symm
    have hlength : is.length = js.length := Nat.succ.inj h
    rw [List.cons_append, List.cons_append, List.cons_lt_cons_iff, List.cons_lt_cons_iff,
      ih hlength, List.cons.injEq]
    tauto

namespace Lattice

theorem place_lt_place_iff {row col row' col' length : Nat} (hcol : col < length)
    (hcol' : col' < length) :
    row * length + col < row' * length + col' ↔ row < row' ∨ row = row' ∧ col < col' := by
  obtain hlt | rfl | hgt := Nat.lt_trichotomy row row'
  · have hnext := place_lt hlt hcol
    simp only [hlt, true_or, iff_true]
    omega
  · simp
  · have hnext := place_lt hgt hcol'
    simp only [Nat.lt_asymm hgt, (Nat.ne_of_lt hgt).symm, false_and, or_false, iff_false]
    omega

/-- The numbers of two points in a box compare as the coordinates do, the last coordinate first. -/
theorem flatten_lt_flatten_iff {index index' shape : List Nat} (h : inBox index shape)
    (h' : inBox index' shape) :
    flatten index shape < flatten index' shape ↔ index.reverse < index'.reverse := by
  fun_induction inBox index shape generalizing index' with
  | case1 =>
    obtain rfl : index' = [] := List.length_eq_zero_iff.mp (length_eq_of_inBox h')
    simp [flatten]
  | case2 i is n ns ih =>
    obtain ⟨j, js, rfl⟩ := List.exists_cons_of_length_eq_add_one (length_eq_of_inBox h')
    simp only [inBox, Bool.and_eq_true, decide_eq_true_eq] at h h'
    have hlength : is.reverse.length = js.reverse.length := by
      rw [List.length_reverse, List.length_reverse, length_eq_of_inBox h.2,
        length_eq_of_inBox h'.2]
    -- the first coordinate decides only between points whose other coordinates are the same
    have heq : flatten is ns = flatten js ns ↔ is.reverse = js.reverse := by
      rw [List.reverse_inj]
      exact ⟨flatten_inj h.2 h'.2, fun his => by rw [his]⟩
    rw [flatten, flatten, place_lt_place_iff h.1 h'.1, ih h.2 h'.2, heq, List.reverse_cons,
      List.reverse_cons, append_singleton_lt_iff hlength]
  | case3 => cases h

theorem bijOn_flatten (shape : List Nat) :
    Set.BijOn (flatten · shape) {index | inBox index shape} (Set.Iio shape.prod) := by
  refine ⟨fun index h => flatten_lt h, fun index h index' h' => flatten_inj h h', fun k hk => ?_⟩
  exact ⟨unflatten k shape, inBox_unflatten (Nat.zero_lt_of_lt hk), flatten_unflatten hk⟩

end Lattice

/-! ### Layouts -/

/-- A product fits when all partial products are sizes. -/
theorem Size.productFits_iff {ns : List Nat} :
    productFits ns = true ↔ ∀ k ≤ ns.length, (ns.take k).prod < limit := by
  constructor
  · intro h k hk
    refine prod_lt_of_fits (productFits_left _ (ns.drop k) ?_)
    rwa [List.take_append_drop]
  · -- from the left, as the product is formed: the last factor is the last to be checked
    induction ns using List.reverseRecOn with
    | nil => exact fun _ => rfl
    | append_singleton ns n ih =>
      intro h
      have hall : (ns ++ [n]).prod < limit := by
        simpa only [List.take_length] using h (ns ++ [n]).length le_rfl
      have hns : productFits ns = true := by
        refine ih fun k hk => ?_
        have hpart := h k (hk.trans (by simp))
        rwa [List.take_append_of_le_length hk] at hpart
      exact productFits_append ns hns (by simpa using hall)

namespace Layout

theorem exists_firstIndexFastest {shape : List Nat} :
    (∃ layout, firstIndexFastest shape = .ok layout) ↔
      ∀ k ≤ shape.length, (shape.take k).prod < Size.limit := by
  rw [← Size.productFits_iff]
  constructor
  · rintro ⟨layout, hlayout⟩
    exact fits_of_firstIndexFastest hlayout
  · intro h
    exact ⟨⟨shape, h⟩, firstIndexFastest_eq_ok.mpr rfl⟩

end Layout

/-! ### Blocks of the storage -/

theorem flatMap_extract (xs : Array α) (n length : Nat) :
    (List.range n).flatMap (fun k => (xs.extract (k * length) ((k + 1) * length)).toList) =
      xs.toList.take (n * length) := by
  induction n with
  | zero => simp
  | succ n ih =>
    have hlength : (n + 1) * length - n * length = length := by
      rw [Nat.succ_mul, Nat.add_sub_cancel_left]
    rw [List.range_succ, List.flatMap_append, ih, List.flatMap_singleton, Array.toList_extract,
      List.extract_eq_take_drop, hlength, Nat.succ_mul, List.take_add]

theorem entryAt_congr {xs ys : Array α} {i : Nat} (h : xs[i]? = ys[i]?) :
    entryAt xs i = entryAt ys i := by
  cases hy : ys[i]? with
  | some y => rw [entryAt_eq_ok.mpr hy, entryAt_eq_ok.mpr (h.trans hy)]
  | none =>
    have hxs := Array.getElem?_eq_none_iff.mp (h.trans hy)
    have hys := Array.getElem?_eq_none_iff.mp hy
    rw [entryAt, entryAt, dif_neg (not_lt.mpr hxs), dif_neg (not_lt.mpr hys)]

namespace MetricArray

/-- The places of the terms of the sub-cell with a number, counted through all elements. -/
def blockPlaces (m : MetricArray α) (k : Nat) : Set Nat :=
  Set.Ico (k * m.subcellStride) ((k + 1) * m.subcellStride)

def block (m : MetricArray α) (k : Nat) : Array α :=
  m.entries.extract (k * m.subcellStride) ((k + 1) * m.subcellStride)

section Blocks

variable (m : MetricArray α)

theorem elementStride_eq : m.elementStride = m.subcells * m.subcellStride := by
  rw [elementStride, subcellStride, Nat.mul_comm]

theorem size_eq_blocks : m.entries.size = m.subcells * m.elements * m.subcellStride := by
  rw [m.size_eq, elementStride_eq, ← Nat.mul_assoc, Nat.mul_comm m.elements]

theorem number_lt {o p : Nat} (ho : o < m.subcells) (hp : p < m.elements) :
    o + m.subcells * p < m.subcells * m.elements := by
  rw [Nat.add_comm, Nat.mul_comm, Nat.mul_comm _ m.elements]
  exact Lattice.place_lt hp ho

theorem disjoint_blockPlaces {o o' p p' : Nat} (ho : o < m.subcells) (ho' : o' < m.subcells)
    (hne : (o, p) ≠ (o', p')) :
    Disjoint (m.blockPlaces (o + m.subcells * p)) (m.blockPlaces (o' + m.subcells * p')) := by
  have hmono : Monotone fun k => k * m.subcellStride := fun _ _ h => Nat.mul_le_mul_right _ h
  refine hmono.pairwise_disjoint_on_Ico_succ fun heq => hne ?_
  have hplace : p * m.subcells + o = p' * m.subcells + o' := by
    rwa [Nat.add_comm, Nat.mul_comm p, Nat.add_comm _ o', Nat.mul_comm p']
  obtain ⟨rfl, rfl⟩ := Lattice.place_inj ho ho' hplace
  rfl

/-- The blocks of all sub-cells one behind the other are the whole storage. -/
theorem flatMap_block :
    (List.range (m.subcells * m.elements)).flatMap (fun k => (m.block k).toList) =
      m.entries.toList := by
  have hall : m.entries.toList.length = m.subcells * m.elements * m.subcellStride := by
    rw [Array.length_toList, m.size_eq_blocks]
  simp only [block, flatMap_extract, ← hall, List.take_length]

theorem succ_mul_subcellStride_le {k : Nat} (hk : k < m.subcells * m.elements) :
    (k + 1) * m.subcellStride ≤ m.entries.size :=
  m.size_eq_blocks ▸ Nat.mul_le_mul_right _ hk

/-- The terms of a sub-cell, read as a slice, are the block of this sub-cell. -/
theorem subcell_eq (hstride : 0 < m.subcellStride) {o p : Nat} (ho : o < m.subcells)
    (hp : p < m.elements) : m.subcell p o = .ok (m.block (o + m.subcells * p)) := by
  have hbox : Lattice.inBox [0, 0, o, p] m.layout.shape := by
    simp [m.shape_layout, Lattice.inBox, ho, hp, Nat.pos_of_mul_pos_left hstride,
      Nat.pos_of_mul_pos_right hstride]
  have hplace : Lattice.flatten [0, 0, o, p] m.layout.shape =
      (o + m.subcells * p) * m.subcellStride := by
    simp only [m.shape_layout, Lattice.flatten, subcellStride]
    ring
  have hstop := m.succ_mul_subcellStride_le (m.number_lt ho hp)
  have hsize : m.entries.size < Size.limit :=
    m.size_entries ▸ Size.prod_lt_of_fits m.layout.fits
  rw [Nat.succ_mul] at hstop
  rw [subcell, m.layout.offset_eq_ok.mpr ⟨hbox, hplace⟩, ok_bind,
    Size.add_eq_ok.mpr ⟨hstop.trans_lt hsize, rfl⟩, ok_bind, slice,
    if_pos ⟨Nat.le_add_right _ _, hstop⟩, block, Nat.succ_mul]

end Blocks

/-- A term is found at its component and point in the block of its sub-cell. -/
theorem getElem?_block (m : MetricArray α) {c q o p : Nat} (hc : c < m.components)
    (hq : q < m.points) (ho : o < m.subcells) (hp : p < m.elements) :
    (m.block (o + m.subcells * p))[c + m.components * q]? =
      (m.terms p)[c + m.components * (q + m.points * o)]? := by
  have hpoint : c + m.components * q < m.subcellStride := by
    rw [subcellStride, Nat.add_comm, Nat.mul_comm, Nat.mul_comm m.components]
    exact Lattice.place_lt hq hc
  have hin : c + m.components * (q + m.points * o) =
      o * m.subcellStride + (c + m.components * q) := by
    rw [subcellStride]
    ring
  have hlt : o * m.subcellStride + (c + m.components * q) < m.elementStride := by
    rw [elementStride_eq]
    exact Lattice.place_lt ho hpoint
  have hplace : (o + m.subcells * p) * m.subcellStride + (c + m.components * q) =
      p * m.elementStride + (o * m.subcellStride + (c + m.components * q)) := by
    rw [elementStride_eq]
    ring
  have hblock := m.succ_mul_subcellStride_le (m.number_lt ho hp)
  have hterms := m.succ_mul_elementStride_le hp
  rw [Nat.succ_mul] at hblock hterms
  rw [hin, block, terms, Array.getElem?_extract, Array.getElem?_extract, Nat.succ_mul, Nat.succ_mul,
    if_pos (by omega), if_pos (by omega), hplace]

/-- Every term in range can be read by its index, as a term of its sub-cell and as a term of its
element. -/
theorem exists_term (m : MetricArray α) {c q o p : Nat} (hc : c < m.components) (hq : q < m.points)
    (ho : o < m.subcells) (hp : p < m.elements) :
    ∃ x block terms, m.get [c, q, o, p] = .ok x ∧
      m.subcell p o = .ok block ∧ block[c + m.components * q]? = some x ∧
      m.element p = .ok terms ∧ terms[c + m.components * (q + m.points * o)]? = some x := by
  have hstride : 0 < m.subcellStride := Nat.mul_pos (Nat.zero_lt_of_lt hc) (Nat.zero_lt_of_lt hq)
  have helement : 0 < m.elementStride := Nat.mul_pos hstride (Nat.zero_lt_of_lt ho)
  have hpoint : q * m.components + c < m.components * m.points := by
    rw [Nat.mul_comm m.components]
    exact Lattice.place_lt hq hc
  have hlt : o * (m.components * m.points) + (q * m.components + c) < (m.terms p).size := by
    rw [m.size_terms hp, elementStride, Nat.mul_comm _ m.subcells]
    exact Lattice.place_lt ho hpoint
  have hplace : c + m.components * (q + m.points * o) =
      o * (m.components * m.points) + (q * m.components + c) := by ring
  have hterm := Array.getElem?_eq_getElem hlt
  refine ⟨_, _, _, (m.get_eq_ok hc hq ho hp).mpr hterm, m.subcell_eq hstride ho hp, ?_,
    m.element_eq helement hp, by rw [hplace, hterm]⟩
  rw [m.getElem?_block hc hq ho hp, hplace, hterm]

/-- An index in range can be written; afterwards it holds what was written, and every other index
what it held before. -/
theorem exists_set (m : MetricArray α) {index : List Nat} (x : α)
    (h : Lattice.inBox index m.layout.shape) :
    ∃ m', m.set index x = .ok m' ∧ m'.layout = m.layout ∧
      ∀ index', m'.get index' = if index' = index then .ok x else m.get index' := by
  have hlt : Lattice.flatten index m.layout.shape < m.entries.size :=
    m.size_entries ▸ Lattice.flatten_lt h
  have hplace := m.layout.offset_eq_ok.mpr ⟨h, rfl⟩
  let written : MetricArray α := { m with
    entries := m.entries.set (Lattice.flatten index m.layout.shape) x hlt
    size_entries := by simp [m.size_entries] }
  have hset : m.set index x = .ok written := by
    rw [set, hplace, ok_bind, dif_pos hlt]
    rfl
  refine ⟨written, hset, rfl, fun index' => ?_⟩
  simp only [get, written]
  split
  next heq => rw [heq, hplace, ok_bind, entryAt_eq_ok, Array.getElem?_set_self]
  next hne =>
    refine bind_congr_of_ok fun place hplace' => entryAt_congr ?_
    obtain ⟨h', rfl⟩ := m.layout.offset_eq_ok.mp hplace'
    exact Array.getElem?_set_ne hlt fun heq => hne (Lattice.flatten_inj h' h heq.symm)

/-- A layout exists exactly when all partial products of its extents are sizes. It then has as many
entries as the product of all extents says, and its indices in range, and no others, have offsets:
all numbers below that count, each once, in the order of the last coordinates first. In an array of
metric terms, every term in range is found by its index, in the slice of its sub-cell and in that
of its element; the slices of different sub-cells are disjoint and, sub-cell by sub-cell through all
elements, make up the storage; and writing one index changes no other. -/
theorem addresses_storage :
    (∀ shape : List Nat,
      ((∃ layout, Layout.firstIndexFastest shape = .ok layout) ↔
        ∀ k ≤ shape.length, (shape.take k).prod < Size.limit) ∧
      ∀ layout, Layout.firstIndexFastest shape = .ok layout →
        layout.length = .ok shape.prod ∧ shape.prod < Size.limit ∧
        ∃ place : List Nat → Nat,
          (∀ index n, layout.offset index = .ok n ↔ Lattice.inBox index shape ∧ place index = n) ∧
          Set.BijOn place {index | Lattice.inBox index shape} (Set.Iio shape.prod) ∧
          ∀ index index', Lattice.inBox index shape → Lattice.inBox index' shape →
            (place index < place index' ↔ index.reverse < index'.reverse)) ∧
    ∀ m : MetricArray α,
      (∀ c < m.components, ∀ q < m.points, ∀ o < m.subcells, ∀ p < m.elements,
        ∃ x block terms, m.get [c, q, o, p] = .ok x ∧
          m.subcell p o = .ok block ∧ block[c + m.components * q]? = some x ∧
          m.element p = .ok terms ∧ terms[c + m.components * (q + m.points * o)]? = some x) ∧
      (0 < m.components * m.points → ∀ o < m.subcells, ∀ p < m.elements,
        m.subcell p o = .ok (m.block (o + m.subcells * p))) ∧
      (∀ o < m.subcells, ∀ o' < m.subcells, ∀ p p', (o, p) ≠ (o', p') →
        Disjoint (m.blockPlaces (o + m.subcells * p)) (m.blockPlaces (o' + m.subcells * p'))) ∧
      (List.range (m.subcells * m.elements)).flatMap (fun k => (m.block k).toList) =
        m.entries.toList ∧
      ∀ index x, Lattice.inBox index [m.components, m.points, m.subcells, m.elements] →
        ∃ m', m.set index x = .ok m' ∧ m'.layout = m.layout ∧
          ∀ index', m'.get index' = if index' = index then .ok x else m.get index' := by
  refine ⟨fun shape => ⟨Layout.exists_firstIndexFastest, fun layout hlayout => ?_⟩, fun m => ?_⟩
  · obtain rfl := Layout.firstIndexFastest_eq_ok.mp hlayout
    exact ⟨layout.length_eq, Size.prod_lt_of_fits layout.fits,
      (Lattice.flatten · layout.shape), fun _ _ => layout.offset_eq_ok,
      Lattice.bijOn_flatten layout.shape, fun _ _ => Lattice.flatten_lt_flatten_iff⟩
  · refine ⟨fun c hc q hq o ho p hp => m.exists_term hc hq ho hp,
      fun hstride o ho p hp => m.subcell_eq hstride ho hp,
      fun o ho o' ho' p p' hne => m.disjoint_blockPlaces ho ho' hne, m.flatMap_block,
      fun index x h => m.exists_set x ?_⟩
    rwa [m.shape_layout]

def placeTerms : MetricArray ℕ where
  components := 3
  points := 4
  subcells := 4
  elements := 2
  layout := ⟨[3, 4, 4, 2], by decide⟩
  entries := Array.range 96
  shape_layout := rfl
  size_entries := Array.size_range

/-- An index of four coordinates has its place between the places of two others, and a term of the
last sub-cell of the second element is read and written there only. -/
theorem addresses_storage_places :
    (∃ layout, Layout.firstIndexFastest [3, 4, 2, 5] = .ok layout ∧ layout.length = .ok 120 ∧
      layout.offset [2, 1, 1, 3] = .ok 89 ∧ ∃ n, layout.offset [0, 2, 1, 3] = .ok n ∧ 89 < n) ∧
    (∃ block terms, placeTerms.get [1, 2, 3, 1] = .ok 91 ∧
      placeTerms.subcell 1 3 = .ok block ∧ block[7]? = some 91 ∧
      placeTerms.element 1 = .ok terms ∧ terms[43]? = some 91) ∧
    placeTerms.subcell 1 3 = .ok (placeTerms.block 7) ∧
    Disjoint (placeTerms.blockPlaces 7) (placeTerms.blockPlaces 6) ∧
    ∃ m', placeTerms.set [1, 2, 3, 1] 5 = .ok m' ∧ m'.get [1, 2, 3, 1] = .ok 5 ∧
      m'.get [2, 2, 3, 1] = .ok 92 := by
  obtain ⟨haddress, hterms⟩ := addresses_storage (α := ℕ)
  obtain ⟨hexists, hlayout⟩ := haddress [3, 4, 2, 5]
  obtain ⟨layout, h⟩ := hexists.mpr (by decide)
  obtain ⟨hlength, -, place, hplace, -, horder⟩ := hlayout layout h
  obtain ⟨hread, hslice, hdisjoint, -, hwrite⟩ := hterms placeTerms
  obtain ⟨x, block, terms, hx, hblock, hcell, helement, helt⟩ :=
    hread 1 (by decide) 2 (by decide) 3 (by decide) 1 (by decide)
  obtain ⟨m', hset, -, hget⟩ := hwrite [1, 2, 3, 1] 5 (by decide)
  have hvalue : placeTerms.get [1, 2, 3, 1] = .ok 91 := by rfl
  have hnext : placeTerms.get [2, 2, 3, 1] = .ok 92 := by rfl
  obtain rfl : layout = ⟨[3, 4, 2, 5], by decide⟩ := Except.ok.inj (h.symm.trans rfl)
  have hoffset : Layout.offset ⟨[3, 4, 2, 5], by decide⟩ [2, 1, 1, 3] = .ok 89 := by rfl
  cases hx.symm.trans hvalue
  refine ⟨⟨_, h, hlength, hoffset, place [0, 2, 1, 3], (hplace _ _).mpr ⟨by decide, rfl⟩, ?_⟩,
    ⟨block, terms, hx, hblock, hcell, helement, helt⟩,
    hslice (by decide) 3 (by decide) 1 (by decide),
    hdisjoint 3 (by decide) 2 (by decide) 1 1 (by decide), m', hset, ?_, ?_⟩
  · rw [← ((hplace _ _).mp hoffset).2]
    exact (horder _ _ (by decide) (by decide)).mpr (by decide)
  · rw [hget, if_pos rfl]
  · rw [hget, if_neg (by decide), hnext]

end MetricArray

end LowOrderRefinement
