import Mathlib.Data.Finset.Basic
import LowOrderRefinement.Proofs.Assembly.Assembled

/-! Elimination of essential degrees of freedom, for matrices of any shape and pattern. It
replaces the values of some stored entries by zero: of those beside the diagonal whose row or
column is essential. Which degrees of freedom are essential is a matter of membership in the
list and of the shape, so that repetition and order do not count, eliminations follow each
other in any order, and an assembly may leave elimination to its end. A table that is as long
as the longer side of the matrix, and from which every access has to be in range, leads to the
same matrix. -/

namespace LowOrderRefinement

variable {α : Type}

namespace Csr

/-! ### Values in their places -/

theorem nrows_mapEntries (m : Csr α) (f : Nat → Nat → α → α) : (m.mapEntries f).nrows = m.nrows :=
  Array.size_mapIdx

theorem mapEntries_mapEntries (m : Csr α) (f g : Nat → Nat → α → α) :
    (m.mapEntries f).mapEntries g = m.mapEntries fun i j v => g i j (f i j v) := by
  simp only [mapEntries, Array.mapIdx_mapIdx, List.map_map, Function.comp_def]

theorem mapEntries_id (m : Csr α) : (m.mapEntries fun _ _ v => v) = m := by
  refine ext_rows (m := m.mapEntries _) rfl (m.nrows_mapEntries _) fun i => ?_
  rw [getD_rows_mapEntries]
  exact List.map_id _

theorem triplets_mapEntries (m : Csr α) (f : Nat → Nat → α → α) :
    (m.mapEntries f).triplets =
      m.triplets.map fun t => { t with value := f t.row t.col t.value } := by
  rw [triplets_eq, triplets_eq, nrows_mapEntries, List.map_flatMap]
  apply List.flatMap_congr
  intro i _
  rw [getD_rows_mapEntries, List.map_map, List.map_map]
  rfl

theorem flatMap_range_single {n i : Nat} (f : Nat → List α) :
    ((List.range n).flatMap fun k => if k = i then f k else []) = if i < n then f i else [] := by
  induction n with
  | zero => rfl
  | succ n ih =>
    rw [List.range_succ, List.flatMap_append, ih, List.flatMap_singleton]
    rcases Nat.lt_trichotomy i n with h | rfl | h
    · rw [if_pos h, if_neg (by omega), if_pos (by omega), List.append_nil]
    · rw [if_neg (Nat.lt_irrefl i), if_pos rfl, if_pos (Nat.lt_succ_self i), List.nil_append]
    · rw [if_neg (by omega), if_neg (by omega), if_neg (by omega), List.append_nil]

theorem getD_rows_eq (m : Csr α) (i : Nat) :
    m.rows.getD i [] = (m.triplets.filter (·.row = i)).map fun t => (t.col, t.value) := by
  have hrow (k : Nat) : ((((m.rows.getD k []).map fun e => (⟨k, e.1, e.2⟩ : Triplet α)).filter
      (·.row = i)).map fun t => (t.col, t.value)) = if k = i then m.rows.getD k [] else [] := by
    rw [List.filter_map, List.map_map]
    change List.map _ (List.filter (fun _ => decide (k = i)) _) = _
    by_cases h : k = i
    · rw [if_pos h, List.filter_eq_self.mpr fun _ _ => decide_eq_true h]
      exact List.map_id _
    · rw [if_neg h, List.filter_eq_nil_iff.mpr fun _ _ => by simpa using h, List.map_nil]
  rw [triplets_eq, List.filter_flatMap, List.map_flatMap, List.flatMap_congr fun k _ => hrow k,
    flatMap_range_single]
  split
  next => rfl
  next h => rw [Array.getD_eq_getD_getElem?, Array.getElem?_eq_none (Nat.not_lt.mp h)]; rfl

theorem ext_triplets {m n : Csr α} (hcols : m.ncols = n.ncols) (hrows : m.nrows = n.nrows)
    (h : m.triplets = n.triplets) : m = n :=
  ext_rows hcols hrows fun i => by rw [getD_rows_eq, getD_rows_eq, h]

/-! ### Essential degrees of freedom -/

/-- The essential degrees of freedom that a matrix has both as a row and as a column. -/
def effective (m : Csr α) (essential : List Nat) : Finset Nat :=
  essential.toFinset.filter (· < min m.nrows m.ncols)

theorem mem_effective {m : Csr α} {essential : List Nat} {i : Nat} :
    i ∈ m.effective essential ↔ i ∈ essential ∧ i < min m.nrows m.ncols := by
  rw [effective, Finset.mem_filter, List.mem_toFinset]

theorem effective_append (m : Csr α) (A B : List Nat) :
    m.effective (A ++ B) = m.effective A ∪ m.effective B := by
  rw [effective, List.toFinset_append, Finset.filter_union]
  rfl

/-- What elimination of a set of degrees of freedom makes of a matrix: entries stay in their
places, and keep their values unless they are beside the diagonal in a row or column of the
set, where they become zero. -/
structure Clears [Zero α] (m : Csr α) (E : Finset Nat) (a : Csr α) : Prop where
  nrows_eq : a.nrows = m.nrows
  ncols_eq : a.ncols = m.ncols
  pattern_eq : a.pattern = m.pattern
  triplets_eq : a.triplets = m.triplets.map fun t =>
    if t.row ≠ t.col ∧ (t.row ∈ E ∨ t.col ∈ E) then { t with value := 0 } else t

section Zero

variable [Zero α] {m : Csr α}

/-- The matrix without the rows and columns of a set, up to the diagonal. -/
def without (m : Csr α) (E : Finset Nat) : Csr α := m.clear fun i => decide (i ∈ E)

theorem without_eq (m : Csr α) (E : Finset Nat) :
    m.without E = m.mapEntries fun i j v => if i ≠ j ∧ (i ∈ E ∨ j ∈ E) then 0 else v := by
  unfold without clear
  congr 1
  funext i j v
  exact if_congr (by simp) rfl rfl

theorem clears_without (m : Csr α) (E : Finset Nat) : m.Clears E (m.without E) where
  nrows_eq := m.nrows_clear _
  ncols_eq := m.ncols_clear _
  pattern_eq := by
    rw [pattern_eq, pattern_eq, without, nrows_clear]
    simp only [columns_clear]
  triplets_eq := by
    rw [without_eq, triplets_mapEntries]
    apply List.map_congr_left
    intro t _
    split <;> rfl

theorem Clears.eq_without {E : Finset Nat} {a : Csr α} (h : m.Clears E a) : a = m.without E := by
  have hwithout := m.clears_without E
  apply ext_triplets
  · rw [h.ncols_eq, hwithout.ncols_eq]
  · rw [h.nrows_eq, hwithout.nrows_eq]
  · rw [h.triplets_eq, hwithout.triplets_eq]

@[simp] theorem effective_without (m : Csr α) (E : Finset Nat) (essential : List Nat) :
    (m.without E).effective essential = m.effective essential := by
  rw [effective, without, nrows_clear, ncols_clear]
  rfl

theorem without_without (m : Csr α) (E F : Finset Nat) :
    (m.without E).without F = m.without (E ∪ F) := by
  rw [without_eq, without_eq, without_eq, mapEntries_mapEntries]
  congr 1
  funext i j v
  simp only [Finset.mem_union]
  split <;> split <;> grind

theorem without_empty (m : Csr α) : m.without ∅ = m := by
  rw [without_eq]
  simpa using m.mapEntries_id

end Zero

/-- Elimination always returns a matrix, without the essential degrees of freedom that exist. -/
theorem eliminate_eq [Scalar α] (m : Csr α) (essential : List Nat) :
    (m.eliminate essential).result = .ok (m.without (m.effective essential)) := by
  rw [Assembly.eliminate_result, without]
  congr 2
  funext i
  rw [getD_essentialTable]
  exact decide_eq_decide.mpr mem_effective.symm

theorem eliminate_eliminate [Scalar α] (m : Csr α) (A B : List Nat) :
    ((m.eliminate A).result >>= fun a => (a.eliminate B).result) =
      .ok (m.without (m.effective A ∪ m.effective B)) := by
  rw [eliminate_eq, ok_bind, eliminate_eq, effective_without, without_without]

/-! ### A table of the longer side -/

/-- A table of the rows or columns that there are more of, which marks the essential degrees of
freedom that are both. -/
def mask (m : Csr α) (essential : List Nat) : Array Bool :=
  essential.foldl (fun mask dof =>
      if dof < min m.nrows m.ncols then mask.setIfInBounds dof true else mask)
    (Array.replicate (max m.nrows m.ncols) false)

/-- The entries of a row after elimination by a table, every access to which has to be in
range. -/
def maskedRow [Zero α] (mask : Array Bool) (i : Nat) (row : Row α) : Checked (Row α) := do
  let rowMarked ← entryAt mask i
  row.mapM fun (j, v) => do
    let erased ← if j = i then .ok false else if rowMarked then .ok true else entryAt mask j
    return (j, if erased then 0 else v)

/-- Elimination by such a table. A matrix is returned as it is when nothing is marked. -/
def eliminateMasked [Zero α] (m : Csr α) (essential : List Nat) : Checked (Csr α) :=
  let mask := m.mask essential
  if mask.any id then do
    let rows ← m.rows.toList.zipIdx.mapM fun (row, i) => maskedRow mask i row
    return ⟨m.ncols, rows.toArray⟩
  else return m

theorem getElem?_mask (m : Csr α) (essential : List Nat) (i : Nat) :
    (m.mask essential)[i]? =
      if i < max m.nrows m.ncols then some (decide (i ∈ m.effective essential)) else none := by
  have hfold (table : Array Bool) :
      (essential.foldl (fun mask dof =>
        if dof < min m.nrows m.ncols then mask.setIfInBounds dof true else mask) table)[i]? =
      table[i]?.map fun b => b || decide (i ∈ m.effective essential) := by
    induction essential generalizing table with
    | nil => simp [mem_effective]
    | cons dof essential ih =>
      rw [List.foldl_cons, ih]
      simp only [mem_effective, List.mem_cons]
      by_cases hdof : dof = i
      · by_cases hi : dof < min m.nrows m.ncols
        · rw [if_pos hi, Array.getElem?_setIfInBounds]
          cases htable : table[i]? <;> grind
        · grind
      · grind
  rw [mask, hfold, Array.getElem?_replicate]
  split <;> rfl

theorem entryAt_mask {m : Csr α} {i : Nat} (hi : i < max m.nrows m.ncols) (essential : List Nat) :
    entryAt (m.mask essential) i = .ok (decide (i ∈ m.effective essential)) := by
  rw [entryAt_eq_ok, getElem?_mask, if_pos hi]

/-- A table without marks stands for no effective degree of freedom. -/
theorem effective_of_any_mask {m : Csr α} {essential : List Nat}
    (h : ¬(m.mask essential).any id = true) : m.effective essential = ∅ := by
  apply Finset.eq_empty_of_forall_notMem
  intro i hi
  apply h
  have hlt : i < max m.nrows m.ncols := by
    have := (mem_effective.mp hi).2
    omega
  have hread := getElem?_mask m essential i
  rw [if_pos hlt, decide_eq_true hi] at hread
  obtain ⟨hsize, hentry⟩ := Array.getElem?_eq_some_iff.mp hread
  exact Array.any_eq_true.mpr ⟨i, hsize, hentry⟩

theorem maskedRow_eq [Zero α] {mask : Array Bool} {E : Finset Nat} {i : Nat} {row : Row α}
    (hi : entryAt mask i = .ok (decide (i ∈ E)))
    (hrow : ∀ e ∈ row, entryAt mask e.1 = .ok (decide (e.1 ∈ E))) :
    maskedRow mask i row =
      .ok (row.map fun (j, v) => (j, if i ≠ j ∧ (i ∈ E ∨ j ∈ E) then 0 else v)) := by
  rw [maskedRow, hi, ok_bind]
  apply mapM_ok_of_forall
  rintro ⟨j, v⟩ hj
  by_cases hij : j = i
  · simp [hij]
  · by_cases hmem : i ∈ E
    · simp [hij, hmem, Ne.symm hij]
    · simp [hij, hmem, Ne.symm hij, hrow (j, v) hj]

theorem toList_rows_mapEntries (m : Csr α) (f : Nat → Nat → α → α) :
    (m.mapEntries f).rows.toList =
      m.rows.toList.zipIdx.map fun (row, i) => row.map fun (j, v) => (j, f i j v) := by
  rw [mapEntries, Array.toList_mapIdx, List.mapIdx_eq_zipIdx_map]

/-- A table of the longer side is read inside of its range and leads to the same matrix. -/
theorem eliminateMasked_eq [Scalar α] {m : Csr α} (h : ∀ i, ∀ j ∈ m.columns i, j < m.ncols)
    (essential : List Nat) : m.eliminateMasked essential = (m.eliminate essential).result := by
  rw [eliminate_eq, eliminateMasked]
  split
  next hany =>
    have hrows : (m.rows.toList.zipIdx.mapM fun (row, i) =>
        maskedRow (m.mask essential) i row) =
        .ok (m.without (m.effective essential)).rows.toList := by
      rw [without_eq, toList_rows_mapEntries]
      apply mapM_ok_of_forall
      rw [zipIdx_rows, List.forall_mem_map]
      intro i hi
      apply maskedRow_eq
      · exact entryAt_mask (lt_max_of_lt_left (List.mem_range.mp hi)) essential
      · intro e he
        have hcol : e.1 < m.ncols := h i e.1 (List.mem_map_of_mem he)
        exact entryAt_mask (lt_max_of_lt_right hcol) essential
    rw [hrows]
    exact congrArg Except.ok (ext_rows rfl rfl fun _ => rfl)
  next hany =>
    rw [effective_of_any_mask hany, without_empty]
    rfl

end Csr

/-! ### Elimination at the end -/

namespace Assembly

variable [Scalar α]

/-- Finalization may leave elimination to its end. -/
theorem finalize_eliminate (b : Builder α) (essential : List Nat) :
    (b.finalize essential).result =
      (b.finalize []).result >>= fun a => (a.eliminate essential).result := by
  have hnone (m : Csr α) : (m.eliminate []).result = .ok m := by
    rw [Csr.eliminate_eq]
    exact congrArg Except.ok m.without_empty
  simp only [finalize_eq_eliminate, hnone, bind_assoc, ok_bind]

theorem assemble_eliminate (schedule : Schedule) (r : Refinement α) (space : Space)
    (essential : List Nat) (options : Options α) :
    (assemble schedule r space essential options).result =
      (assemble schedule r space [] options).result >>=
        fun a => (a.eliminate essential).result.mapError Failure.fault := by
  rw [assemble_result, assemble_result, bind_assoc]
  apply bind_congr
  intro x
  rw [bind_assoc]
  apply bind_congr
  intro b
  rw [finalize_eliminate, mapError_bind]

/-- Which matrix is assembled does not depend on the schedule. -/
theorem assemble_eq_ok_congr (schedule schedule' : Schedule) (r : Refinement α) (space : Space)
    (essential : List Nat) (options : Options α) (a : Csr α) :
    (assemble schedule r space essential options).result = .ok a ↔
      (assemble schedule' r space essential options).result = .ok a := by
  have hself : options.withParallel options.parallel = options := rfl
  have hserial (s s' : Schedule) := assemble_parallel_eq_ok s s' r space essential options a
  rw [← hself]
  cases options.parallel with
  | true => exact (hserial schedule schedule).trans (hserial schedule' schedule).symm
  | false => exact (hserial schedule schedule).symm.trans (hserial schedule schedule')

end Assembly

namespace Csr

/-- Elimination always returns a matrix, the one with zeros beside the diagonal in the rows and
columns of the essential degrees of freedom that exist. It depends on which those are, may be
repeated, done in parts and in any order, works as well with a table of the longer side, and
comes last in an assembly. -/
theorem eliminate_clears [Scalar α] (m : Csr α) (A B : List Nat) :
    let eliminated (m : Csr α) (essential : List Nat) := (m.eliminate essential).result
    (∃ a, eliminated m A = .ok a) ∧
    (∀ a, eliminated m A = .ok a ↔ m.Clears (m.effective A) a) ∧
    (m.effective A = m.effective B → eliminated m A = eliminated m B) ∧
    (eliminated m A >>= fun a => eliminated a A) = eliminated m A ∧
    (eliminated m A >>= fun a => eliminated a B) = eliminated m (A ++ B) ∧
    (eliminated m A >>= fun a => eliminated a B) = (eliminated m B >>= fun b => eliminated b A) ∧
    ((∀ i, ∀ j ∈ m.columns i, j < m.ncols) → m.eliminateMasked A = eliminated m A) ∧
    ∀ (schedule schedule' : Schedule) (r : Refinement α) (space : Space) (options : Options α),
      (Assembly.assemble schedule r space A options).result =
        ((Assembly.assemble schedule r space [] options).result >>=
          fun a => (eliminated a A).mapError Failure.fault) ∧
      ∀ a, (Assembly.assemble schedule r space A options).result = .ok a ↔
        ∃ b, (Assembly.assemble schedule' r space [] options).result = .ok b ∧
          eliminated b A = .ok a := by
  intro eliminated
  refine ⟨⟨_, m.eliminate_eq A⟩, fun a => ⟨fun h => ?_, fun h => ?_⟩, fun h => ?_, ?_, ?_, ?_,
    fun h => eliminateMasked_eq h A, fun schedule schedule' r space options =>
      ⟨Assembly.assemble_eliminate schedule r space A options, fun a => ?_⟩⟩
  · obtain rfl := Except.ok.inj ((m.eliminate_eq A).symm.trans h)
    exact m.clears_without _
  · rw [h.eq_without]
    exact m.eliminate_eq A
  · show (m.eliminate A).result = (m.eliminate B).result
    rw [eliminate_eq, eliminate_eq, h]
  · rw [eliminate_eliminate, Finset.union_self]
    exact (m.eliminate_eq A).symm
  · rw [eliminate_eliminate, ← effective_append]
    exact (m.eliminate_eq (A ++ B)).symm
  · rw [eliminate_eliminate, eliminate_eliminate, Finset.union_comm]
  · rw [Assembly.assemble_eliminate, bind_eq_ok]
    apply exists_congr
    intro b
    rw [mapError_eq_ok, Assembly.assemble_eq_ok_congr schedule schedule']

def rectangle : Csr ℚ := ⟨3, #[[(0, 1), (1, 2), (2, 3)], [(0, 4), (2, 5)]]⟩

/-- The last column has no row beside it, so that it is not essential even when it is listed. -/
theorem eliminate_clears_rectangle :
    rectangle.effective [2, 0, 0, 7] = rectangle.effective [0] ∧
    (∀ i, ∀ j ∈ rectangle.columns i, j < rectangle.ncols) ∧
    (rectangle.eliminate [2, 0, 0, 7]).result = (rectangle.eliminate [0]).result ∧
    rectangle.eliminateMasked [2, 0, 0, 7] =
      .ok ⟨3, #[[(0, 1), (1, 0), (2, 0)], [(0, 0), (2, 5)]]⟩ := by
  have heffective : rectangle.effective [2, 0, 0, 7] = rectangle.effective [0] := by decide
  have hcols : ∀ i, ∀ j ∈ rectangle.columns i, j < rectangle.ncols := by
    intro i j hj
    have hi : i < 2 := lt_of_mem_columns hj
    revert j
    revert i
    decide
  obtain ⟨-, -, hset, -, -, -, hmask, -⟩ := eliminate_clears rectangle [2, 0, 0, 7] [0]
  exact ⟨heffective, hcols, hset heffective, (hmask hcols).trans rfl⟩

end Csr

end LowOrderRefinement
