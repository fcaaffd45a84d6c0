import LowOrderRefinement.Proofs.ExactField
import LowOrderRefinement.Dense
import LowOrderRefinement.Lattice
import LowOrderRefinement.Proofs.Stencil.RowSums
import LowOrderRefinement.Proofs.Storage.Blocks
import LowOrderRefinement.Proofs.Sparse.BilinearForm

/-! Additions to square matrices with all entries in storage. An addition inside of the
matrix succeeds and changes one entry; a sequence of steps, each of which adds some
amount to every entry, adds the sum of the amounts. A sparse matrix has a dense form
when there is room for it. -/

namespace LowOrderRefinement

open Finset

variable {K : Type} [ExactField K]

namespace Dense

def value (d : Dense K) (i j : Nat) : K := d.entries.getD (i * d.ncols + j) 0

/-- A step adds an amount to every entry of square matrices of the given size. -/
def Adds (n : Nat) (step : Dense K → Checked (Dense K)) (amount : Nat → Nat → K) : Prop :=
  ∀ d : Dense K, d.nrows = n → d.ncols = n → ∃ d', step d = .ok d' ∧ d'.nrows = n ∧ d'.ncols = n ∧
    ∀ i < n, ∀ j < n, d'.value i j = d.value i j + amount i j

theorem adds_add {n row col : Nat} (hrow : row < n) (hcol : col < n) (v : K) :
    Adds n (fun d => d.add row col v) fun i j => if row = i ∧ col = j then v else 0 := by
  intro d hrows hcols
  have hinside : (decide (row < d.nrows) && decide (col < d.ncols)) = true := by
    simp [hrows, hcols, hrow, hcol]
  have hadd : d.add row col v = .ok { d with
      entries := d.entries.modify (row * d.ncols + col) (· + v)
      size_entries := by simp [d.size_entries] } := by
    unfold add
    rw [hinside]
    rfl
  refine ⟨_, hadd, hrows, hcols, fun i hi j hj => ?_⟩
  have hplace : row * n + col = i * n + j ↔ row = i ∧ col = j := by
    refine ⟨Lattice.place_inj hcol hj, ?_⟩
    rintro ⟨rfl, rfl⟩
    rfl
  have hsize : i * n + j < d.entries.size := by
    rw [d.size_entries, hrows, hcols]
    exact Lattice.place_lt hi hj
  simp only [value, Array.getD_eq_getD_getElem?, Array.getElem?_modify, hcols, hplace]
  by_cases h : row = i ∧ col = j
  · simp [h, hsize]
  · simp [h]

theorem adds_foldlM {β : Type} {n : Nat} {xs : List β} {step : Dense K → β → Checked (Dense K)}
    {amount : β → Nat → Nat → K} (h : ∀ x ∈ xs, Adds n (step · x) (amount x)) :
    Adds n (fun d => xs.foldlM step d) fun i j => (xs.map fun x => amount x i j).sum := by
  induction xs with
  | nil =>
    intro d hrows hcols
    exact ⟨d, rfl, hrows, hcols, by simp⟩
  | cons x xs ih =>
    obtain ⟨hx, hxs⟩ := List.forall_mem_cons.mp h
    intro d hrows hcols
    obtain ⟨d₁, hstep, hrows₁, hcols₁, hvalue₁⟩ := hx d hrows hcols
    obtain ⟨d₂, hrest, hrows₂, hcols₂, hvalue₂⟩ := ih hxs d₁ hrows₁ hcols₁
    refine ⟨d₂, ?_, hrows₂, hcols₂, fun i hi j hj => ?_⟩
    · change (xs.foldlM step =<< step d x) = _
      rw [show step d x = .ok d₁ from hstep]
      exact hrest
    · simp only [hvalue₂ i hi j hj, hvalue₁ i hi j hj, List.map_cons, List.sum_cons, add_assoc]

theorem ext_value {d d' : Dense K} (hrows : d.nrows = d'.nrows) (hcols : d.ncols = d'.ncols)
    (hvalue : ∀ i < d.nrows, ∀ j < d.ncols, d.value i j = d'.value i j) : d = d' := by
  have hsize : d.entries.size = d'.entries.size := by
    rw [d.size_entries, d'.size_entries, hrows, hcols]
  have hentries : d.entries = d'.entries := by
    refine Array.ext hsize fun k hk hk' => ?_
    have hlt : k < d.nrows * d.ncols := d.size_entries ▸ hk
    have hpos : 0 < d.ncols := Nat.pos_of_ne_zero fun h => by simp [h] at hlt
    have hsame := hvalue (k / d.ncols) (Nat.div_lt_of_lt_mul (Nat.mul_comm _ _ ▸ hlt))
      (k % d.ncols) (Nat.mod_lt k hpos)
    simpa only [value, ← hcols, Nat.div_add_mod', Array.getD_eq_getD_getElem?,
      Array.getElem?_eq_getElem hk, Array.getElem?_eq_getElem hk', Option.getD_some] using hsame
  cases d
  cases d'
  simp_all

end Dense

/-! ### Dense forms -/

namespace Csr

def entriesByRow (m : Csr K) : Array K :=
  ((List.range (m.nrows * m.ncols)).map fun k => m.value (k / m.ncols) (k % m.ncols)).toArray

theorem size_entriesByRow (m : Csr K) : m.entriesByRow.size = m.nrows * m.ncols := by
  simp [entriesByRow]

theorem getElem?_entriesByRow (m : Csr K) {i j : Nat} (hi : i < m.nrows) (hj : j < m.ncols) :
    m.entriesByRow[i * m.ncols + j]? = some (m.value i j) := by
  have hlt : i * m.ncols + j < m.nrows * m.ncols := Lattice.place_lt hi hj
  simp [entriesByRow, hlt, Lattice.place_div hj, Nat.mul_add_mod_of_lt hj]

/-- The matrix with all entries in storage, for which there has to be room. -/
def toDense (m : Csr K) : Checked (Dense K) := do
  let size ← Size.mul m.nrows m.ncols
  Size.reserve size
  Dense.ofEntries m.nrows m.ncols m.entriesByRow

/-- Where there is room, the dense form exists and has the same entries. -/
theorem exists_toDense {m : Csr K} (hroom : m.nrows * m.ncols ≤ Size.maxEntries) :
    ∃ d, m.toDense = .ok d ∧ d.nrows = m.nrows ∧ d.ncols = m.ncols ∧
      ∀ i < m.nrows, ∀ j < m.ncols, d.value i j = m.value i j := by
  have hmul : Size.mul m.nrows m.ncols = .ok (m.nrows * m.ncols) :=
    Size.mul_eq_ok.mpr ⟨Nat.lt_of_le_of_lt hroom (by decide), rfl⟩
  have hreserve : Size.reserve (m.nrows * m.ncols) = .ok () :=
    require_eq_ok.mpr (decide_eq_true hroom)
  refine ⟨⟨m.nrows, m.ncols, m.entriesByRow, m.size_entriesByRow⟩, ?_, rfl, rfl,
    fun i hi j hj => ?_⟩
  · rw [toDense, hmul, ok_bind, hreserve, ok_bind, Dense.ofEntries, dif_pos m.size_entriesByRow]
  · rw [Dense.value, Array.getD_eq_getD_getElem?, m.getElem?_entriesByRow hi hj, Option.getD_some]

end Csr

/-- Steps that add, from zero, exactly the entries of a sparse matrix lead to its dense form. -/
theorem Dense.zeros_bind_eq_toDense {n : Nat} {m : Csr K} (hrows : m.nrows = n)
    (hcols : m.ncols = n) {step : Dense K → Checked (Dense K)} {amount : Nat → Nat → K}
    (hstep : Adds n step amount) (hvalue : ∀ i < n, ∀ j < n, amount i j = m.value i j) :
    (Dense.zeros n n >>= step) = m.toDense := by
  subst hrows
  rw [zeros, Csr.toDense, hcols, bind_assoc]
  refine bind_congr_of_ok fun size hsize => ?_
  obtain ⟨-, rfl⟩ := Size.mul_eq_ok.mp hsize
  rw [bind_assoc]
  refine bind_congr_of_ok fun _ _ => ?_
  have hsize : m.entriesByRow.size = m.nrows * m.nrows := by rw [m.size_entriesByRow, hcols]
  rw [ofEntries, dif_pos Array.size_replicate, ok_bind, ofEntries, dif_pos hsize]
  obtain ⟨d, hd, hdrows, hdcols, hdvalue⟩ :=
    hstep ⟨m.nrows, m.nrows, Array.replicate (m.nrows * m.nrows) 0, Array.size_replicate⟩ rfl rfl
  rw [hd]
  refine congrArg Except.ok (ext_value hdrows hdcols fun i hi j hj => ?_)
  rw [hdrows] at hi
  rw [hdcols] at hj
  have hentry := m.getElem?_entriesByRow hi (hcols.symm ▸ hj)
  rw [hcols] at hentry
  rw [hdvalue i hi j hj, hvalue i hi j hj]
  simp [value, Array.getD_eq_getD_getElem?, hentry, Lattice.place_lt hi hj]

end LowOrderRefinement
