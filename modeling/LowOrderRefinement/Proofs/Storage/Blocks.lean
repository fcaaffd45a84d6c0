import LowOrderRefinement.MetricArray
import LowOrderRefinement.Proofs.Execution.Traversal

/-! Reading flat storage. An index in range has the place that its number in the mixed
radix of the shape says, and no sum or product on the way to it overflows. When
storage is filled with blocks of one length, entry `r` of block `i` is found at
`i * length + r`; this locates the terms of an element and of a sub-cell. -/

namespace LowOrderRefinement

variable {α : Type}

/-! ### Offsets -/

theorem Size.lt_of_foldlM_mul {ns : List Nat} {start n : Nat} (hstart : start < Size.limit)
    (h : ns.foldlM Size.mul start = .ok n) : n < Size.limit := by
  induction ns generalizing start with
  | nil => rwa [← pure_eq_ok.mp h]
  | cons m ns ih =>
    rw [List.foldlM_cons] at h
    obtain ⟨k, hk, hn⟩ := bind_eq_ok.mp h
    obtain ⟨hlt, rfl⟩ := Size.mul_eq_ok.mp hk
    exact ih hlt hn

theorem Size.prod_lt_of_fits {ns : List Nat} (h : Size.productFits ns) : ns.prod < Size.limit :=
  Size.lt_of_foldlM_mul (by decide) (Size.product_of_fits h)

namespace Layout

/-- The sum of coordinates times strides is the number of the point, times the first stride. -/
theorem dotStrides_stridesFrom {index shape : List Nat} (stride : Nat)
    (h : stride * Lattice.flatten index shape < Size.limit) :
    dotStrides index (stridesFrom stride shape) = .ok (stride * Lattice.flatten index shape) := by
  induction index generalizing stride shape with
  | nil => cases shape <;> simp [dotStrides, Lattice.flatten]
  | cons i is ih =>
    cases shape with
    | nil => simp [dotStrides, stridesFrom, Lattice.flatten]
    | cons n ns =>
      rw [Lattice.flatten] at h ⊢
      have hsum : stride * (Lattice.flatten is ns * n + i) =
          i * stride + stride * n * Lattice.flatten is ns := by
        rw [Nat.mul_add, Nat.mul_comm stride i, Nat.add_comm, Nat.mul_assoc,
          Nat.mul_comm n]
      rw [hsum] at h ⊢
      have hrest : dotStrides is (stridesFrom (stride * n) ns) =
          .ok (stride * n * Lattice.flatten is ns) := ih (stride * n) (by omega)
      have hfirst : Size.mul i stride = .ok (i * stride) := Size.mul_eq_ok.mpr ⟨by omega, rfl⟩
      rw [stridesFrom, dotStrides, hfirst, hrest]
      exact Size.add_eq_ok.mpr ⟨h, rfl⟩

theorem firstIndexFastest_eq_ok {shape : List Nat} {layout : Layout} :
    firstIndexFastest shape = .ok layout ↔ layout.shape = shape := by
  constructor
  · intro h
    unfold firstIndexFastest at h
    split at h <;> cases h
    rfl
  · rintro rfl
    rw [firstIndexFastest, dif_pos layout.fits]

/-- An index in range is stored at its number. -/
theorem offset_eq_ok (layout : Layout) {index : List Nat} {place : Nat} :
    layout.offset index = .ok place ↔
      Lattice.inBox index layout.shape ∧ Lattice.flatten index layout.shape = place := by
  have hplace (h : Lattice.inBox index layout.shape = true) :
      dotStrides index layout.strides = .ok (Lattice.flatten index layout.shape) := by
    have hlt : Lattice.flatten index layout.shape < Size.limit :=
      Nat.lt_trans (Lattice.flatten_lt h) (Size.prod_lt_of_fits layout.fits)
    have hdot : dotStrides index (stridesFrom 1 layout.shape) =
        .ok (1 * Lattice.flatten index layout.shape) :=
      dotStrides_stridesFrom 1 (by simpa using hlt)
    simpa [strides] using hdot
  rw [offset, bind_eq_ok]
  simp only [require_eq_ok, exists_const]
  constructor
  · rintro ⟨h, hd⟩
    rw [hplace h] at hd
    exact ⟨h, Except.ok.inj hd⟩
  · rintro ⟨h, rfl⟩
    exact ⟨h, hplace h⟩

end Layout

/-! ### Blocks of one length -/

theorem length_flatten_blocks {blocks : List (List α)} {n : Nat}
    (h : ∀ b ∈ blocks, b.length = n) : blocks.flatten.length = blocks.length * n := by
  rw [List.length_flatten, List.map_congr_left h, List.map_const', List.sum_replicate_nat]

theorem getElem?_flatten_blocks {blocks : List (List α)} {n i r : Nat}
    (h : ∀ b ∈ blocks, b.length = n) (hr : r < n) :
    blocks.flatten[i * n + r]? = blocks[i]?.bind (·[r]?) := by
  induction blocks generalizing i with
  | nil => simp
  | cons b blocks ih =>
    obtain ⟨hb, hblocks⟩ := List.forall_mem_cons.mp h
    rw [List.flatten_cons]
    cases i with
    | zero => rw [List.getElem?_append_left (by omega)]; simp
    | succ i =>
      have hle : b.length ≤ (i + 1) * n + r := by rw [hb, Nat.succ_mul]; omega
      have hsub : (i + 1) * n + r - b.length = i * n + r := by rw [hb, Nat.succ_mul]; omega
      rw [List.getElem?_append_right hle, hsub, ih hblocks, List.getElem?_cons_succ]

theorem getElem?_flatMap_blocks {β : Type} {xs : List β} {f : β → List α} {n i c : Nat}
    (hlength : ∀ x ∈ xs, (f x).length = n) (hc : c < n) :
    (xs.flatMap f)[i * n + c]? = xs[i]?.bind fun x => (f x)[c]? := by
  have hblocks : ∀ b ∈ xs.map f, b.length = n := by
    intro b hb
    obtain ⟨x, hx, rfl⟩ := List.mem_map.mp hb
    exact hlength x hx
  rw [List.flatMap, getElem?_flatten_blocks hblocks hc, List.getElem?_map, Option.bind_map]
  rfl

namespace MetricArray

def terms (m : MetricArray α) (element : Nat) : Array α :=
  m.entries.extract (element * m.elementStride) ((element + 1) * m.elementStride)

theorem size_eq (m : MetricArray α) : m.entries.size = m.elements * m.elementStride := by
  rw [m.size_entries, m.shape_layout]
  simp only [List.prod_cons, List.prod_nil, elementStride, Nat.mul_one]
  rw [Nat.mul_comm m.elements, Nat.mul_assoc, Nat.mul_assoc]

theorem succ_mul_elementStride_le (m : MetricArray α) {element : Nat} (h : element < m.elements) :
    (element + 1) * m.elementStride ≤ m.entries.size :=
  m.size_eq ▸ Nat.mul_le_mul_right _ h

theorem size_terms (m : MetricArray α) {element : Nat} (h : element < m.elements) :
    (m.terms element).size = m.elementStride := by
  have := m.succ_mul_elementStride_le h
  rw [terms, Array.size_extract, Nat.min_eq_left this, Nat.succ_mul]
  omega

theorem element_eq (m : MetricArray α) (hstride : 0 < m.elementStride) {element : Nat}
    (h : element < m.elements) : m.element element = .ok (m.terms element) := by
  have hsize : m.entries.size < Size.limit := by
    rw [m.size_entries]
    exact Size.prod_lt_of_fits m.layout.fits
  have hstop := m.succ_mul_elementStride_le h
  have hstart : element * m.elementStride ≤ (element + 1) * m.elementStride :=
    Nat.mul_le_mul_right _ (Nat.le_succ element)
  have hnext : element + 1 ≤ (element + 1) * m.elementStride := Nat.le_mul_of_pos_right _ hstride
  have h1 : Size.mul element m.elementStride = .ok (element * m.elementStride) :=
    Size.mul_eq_ok.mpr ⟨by omega, rfl⟩
  have h2 : Size.add element 1 = .ok (element + 1) := Size.add_eq_ok.mpr ⟨by omega, rfl⟩
  have h3 : Size.mul (element + 1) m.elementStride = .ok ((element + 1) * m.elementStride) :=
    Size.mul_eq_ok.mpr ⟨by omega, rfl⟩
  rw [MetricArray.element, h1, ok_bind, h2, ok_bind, h3, ok_bind, slice, if_pos ⟨hstart, hstop⟩,
    terms]

/-- A term of a sub-cell of an element, in an array that is filled sub-cell by sub-cell. -/
theorem getElem?_terms (m : MetricArray α) {blocks : List (List α)} {n : Nat}
    (hentries : m.entries = blocks.flatten.toArray) (hblocks : ∀ b ∈ blocks, b.length = n)
    (hstride : m.elementStride = m.subcells * n) {element cell r : Nat}
    (helement : element < m.elements) (hcell : cell < m.subcells) (hr : r < n) :
    (m.terms element)[cell * n + r]? = blocks[cell + m.subcells * element]?.bind (·[r]?) := by
  have hlt : cell * n + r < m.elementStride := by
    rw [hstride]
    exact Lattice.place_lt hcell hr
  have hstop := m.succ_mul_elementStride_le helement
  have hplace : element * m.elementStride + (cell * n + r) =
      (cell + m.subcells * element) * n + r := by
    rw [hstride, Nat.add_mul, Nat.mul_comm m.subcells element, Nat.mul_assoc]
    omega
  rw [terms, Array.getElem?_extract, if_pos, hplace, hentries, List.getElem?_toArray,
    getElem?_flatten_blocks hblocks hr]
  rw [Nat.succ_mul] at hstop ⊢
  omega

end MetricArray

end LowOrderRefinement
