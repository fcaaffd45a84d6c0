import LowOrderRefinement.Proofs.Errors.Admissible
import LowOrderRefinement.Proofs.Sparse.Elimination
import LowOrderRefinement.Proofs.Sparse.Conversion

/-! Whole runs of additions to a matrix. A call adds one contribution, a sequence of them, or
the entries of a local matrix column by column; it keeps what comes before the first
contribution outside of the matrix, and nothing of a local matrix of another shape. A run keeps
what its calls keep, one after the other. Finalization stores the places of what was kept, with
the sum in the order of arrival in each of them, up to elimination. These facts determine the
matrix, so that any other way to sum contributions in order leads to it as well. -/

namespace LowOrderRefinement

variable {α : Type}

namespace Csr

variable [Scalar α] {nrows ncols : Nat} {ts : List (Triplet α)} {a : Csr α}

theorem Totals.without (h : Totals nrows ncols ts ∅ a) (E : Finset Nat) :
    Totals nrows ncols ts E (a.without E) := by
  have hclears := a.clears_without E
  refine ⟨⟨hclears.nrows_eq.trans h.nrows_eq, hclears.ncols_eq.trans h.ncols_eq, fun i => ?_,
    fun i j => ?_⟩, fun i j hj => ?_⟩
  · rw [Csr.without, columns_clear]
    exact h.ascending i
  · rw [hclears.pattern_eq]
    exact h.mem_pattern i j
  · rw [hclears.pattern_eq] at hj
    rw [Csr.without, entry?_clear, h.entry i j hj, if_neg (by simp), Option.map_some]
    simp only [Bool.or_eq_true, decide_eq_true_eq]

theorem Totals.eliminate (h : Totals nrows ncols ts ∅ a) (essential : List Nat) :
    ∃ b, (a.eliminate essential).result = .ok b ∧
      Totals nrows ncols ts (b.effective essential) b := by
  refine ⟨_, a.eliminate_eq essential, ?_⟩
  rw [effective_without]
  exact h.without _

end Csr

namespace Builder

/-! ### Calls -/

theorem not_of_getElem?_takeWhile {β : Type} {p : β → Bool} {xs : List β} {x : β}
    (h : xs[(xs.takeWhile p).length]? = some x) : ¬p x = true := by
  induction xs with
  | nil => cases h
  | cons y xs ih =>
    by_cases hy : p y = true
    · rw [List.takeWhile_cons_of_pos hy, List.length_cons, List.getElem?_cons_succ] at h
      exact ih h
    · rw [List.takeWhile_cons_of_neg hy] at h
      obtain rfl : y = x := by simpa using h
      exact hy

/-- A call that adds contributions. -/
inductive Call (α : Type)
  | add (t : Triplet α)
  | addTriplets (ts : List (Triplet α))
  /-- A local matrix with a row and a column for each index. -/
  | addLocal (indices : List Nat) (m : Dense α)

/-- The builder that is reached by a call, and whether the call ended well. -/
def apply (b : Builder α) : Call α → Builder α × Checked Unit
  | .add t => b.push [t]
  | .addTriplets ts => b.push ts
  | .addLocal indices m => b.pushLocal indices m

/-- The builder after a run of calls, whether or not they ended well. -/
def run (b : Builder α) (calls : List (Call α)) : Builder α :=
  calls.foldl (fun b call => (b.apply call).1) b

namespace Call

/-- Whether the call gives a local matrix the shape that its indices ask for. -/
def Fits : Call α → Prop
  | .addLocal indices m => m.nrows = indices.length ∧ m.ncols = indices.length
  | _ => True

instance : (call : Call α) → Decidable call.Fits
  | .add _ => isTrue trivial
  | .addTriplets _ => isTrue trivial
  | .addLocal indices m =>
    inferInstanceAs (Decidable (m.nrows = indices.length ∧ m.ncols = indices.length))

/-- The contributions of a call, in the order in which it adds them. -/
def offered (call : Call α) : List (Triplet α) :=
  if call.Fits then
    match call with
    | .add t => [t]
    | .addTriplets ts => ts
    | .addLocal indices m => localTriplets indices m
  else []

/-- The contributions of a call before the first one outside of the matrix. -/
def accepted (nrows ncols : Nat) (call : Call α) : List (Triplet α) :=
  call.offered.takeWhile fun t => t.row < nrows && t.col < ncols

variable {call : Call α} {nrows ncols : Nat} {t : Triplet α}

theorem inside_of_mem_accepted (h : t ∈ call.accepted nrows ncols) :
    t.row < nrows ∧ t.col < ncols := by
  simpa using List.all_eq_true.mp List.all_takeWhile t h

theorem outside_of_accepted (h : call.offered[(call.accepted nrows ncols).length]? = some t) :
    ¬(t.row < nrows ∧ t.col < ncols) := by
  simpa using not_of_getElem?_takeWhile h

theorem accepted_eq_offered_iff : call.accepted nrows ncols = call.offered ↔
    (call.offered.all fun t => t.row < nrows && t.col < ncols) = true := by
  rw [accepted, List.takeWhile_eq_self_iff, List.all_eq_true]

end Call

/-- What a call does to a builder. -/
structure Applied (b : Builder α) (call : Call α) (kept : List (Triplet α)) : Prop where
  nrows_eq : (b.apply call).1.nrows = b.nrows
  ncols_eq : (b.apply call).1.ncols = b.ncols
  entries_eq : (b.apply call).1.entries.toList = b.entries.toList ++ kept
  kept_prefix : kept <+: call.offered
  inside : ∀ t ∈ kept, t.row < b.nrows ∧ t.col < b.ncols
  stops : ∀ t, call.offered[kept.length]? = some t → ¬(t.row < b.nrows ∧ t.col < b.ncols)
  succeeds : (b.apply call).2 = .ok () ↔ call.Fits ∧ kept = call.offered
  wrongLength : (b.apply call).2 = .error .wrongLength ↔ ¬call.Fits
  outOfRange : (b.apply call).2 = .error .outOfRange ↔ call.Fits ∧ kept ≠ call.offered

/-- A call either is a sequence of contributions or does nothing. -/
theorem apply_eq (b : Builder α) (call : Call α) :
    b.apply call = if call.Fits then b.push call.offered else (b, .error .wrongLength) := by
  cases call with
  | add t => rfl
  | addTriplets ts => rfl
  | addLocal indices m =>
    by_cases h : m.nrows = indices.length ∧ m.ncols = indices.length
    · have hfits : (Call.addLocal indices m).Fits := h
      rw [if_pos hfits, Call.offered, if_pos hfits, apply, pushLocal, if_pos h]
    · have hfits : ¬(Call.addLocal indices m).Fits := h
      rw [if_neg hfits, apply, pushLocal, if_neg h]

/-- A call keeps what it offers up to the first contribution outside of the matrix. -/
theorem applied (b : Builder α) (call : Call α) :
    b.Applied call (call.accepted b.nrows b.ncols) := by
  have hprefix : call.accepted b.nrows b.ncols <+: call.offered := List.takeWhile_prefix _
  have hinside : ∀ t ∈ call.accepted b.nrows b.ncols, t.row < b.nrows ∧ t.col < b.ncols :=
    fun _ => Call.inside_of_mem_accepted
  by_cases hfits : call.Fits
  · have happly : b.apply call = (b.accept call.offered, b.admitsAll call.offered) := by
      rw [apply_eq, if_pos hfits, push]
    have hall : call.accepted b.nrows b.ncols = call.offered ↔
        call.offered.all b.admits = true := Call.accepted_eq_offered_iff
    refine ⟨?_, ?_, ?_, hprefix, hinside, fun _ => Call.outside_of_accepted, ?_, ?_, ?_⟩
    · rw [happly]; rfl
    · rw [happly]; rfl
    · rw [happly, accept, Array.toList_append]; rfl
    · rw [happly, hall, admitsAll, require_eq_ok]
      exact (and_iff_right hfits).symm
    · rw [happly, admitsAll, require]
      split <;> simp [hfits]
    · rw [happly, Ne, hall, admitsAll, require]
      split <;> simp [*]
  · have happly : b.apply call = (b, .error .wrongLength) := by rw [apply_eq, if_neg hfits]
    have hnone : call.accepted b.nrows b.ncols = [] := by
      have hoffered : call.offered = [] := if_neg hfits
      rw [Call.accepted, hoffered, List.takeWhile_nil]
    refine ⟨?_, ?_, ?_, hprefix, hinside, fun _ => Call.outside_of_accepted, ?_, ?_, ?_⟩
    · rw [happly]
    · rw [happly]
    · rw [happly, hnone, List.append_nil]
    · simp [happly, hfits]
    · simp [happly, hfits]
    · simp [happly, hfits]

/-! ### Runs -/

def kept (nrows ncols : Nat) (calls : List (Call α)) : List (Triplet α) :=
  calls.flatMap (Call.accepted nrows ncols)

/-- A run keeps what its calls keep, one after the other. -/
theorem run_spec (b : Builder α) (calls : List (Call α)) :
    (b.run calls).nrows = b.nrows ∧ (b.run calls).ncols = b.ncols ∧
      (b.run calls).entries.toList = b.entries.toList ++ kept b.nrows b.ncols calls := by
  induction calls generalizing b with
  | nil => simp [run, kept]
  | cons call calls ih =>
    have hcall := b.applied call
    obtain ⟨hrows, hcols, hentries⟩ := ih (b.apply call).1
    refine ⟨hrows.trans hcall.nrows_eq, hcols.trans hcall.ncols_eq, ?_⟩
    rw [hcall.nrows_eq, hcall.ncols_eq, hcall.entries_eq] at hentries
    rw [kept, List.flatMap_cons, ← List.append_assoc]
    exact hentries

section Empty

variable (nrows ncols : Nat) (calls : List (Call α))

@[simp] theorem nrows_run_empty : ((empty nrows ncols).run calls).nrows = nrows :=
  ((empty nrows ncols).run_spec calls).1

@[simp] theorem ncols_run_empty : ((empty nrows ncols).run calls).ncols = ncols :=
  ((empty nrows ncols).run_spec calls).2.1

theorem entries_run_empty :
    ((empty nrows ncols).run calls).entries = (kept nrows ncols calls).toArray :=
  Array.toList_inj.mp ((empty nrows ncols).run_spec calls).2.2

theorem kept_inside : ∀ t ∈ kept nrows ncols calls, t.row < nrows ∧ t.col < ncols := by
  intro t ht
  obtain ⟨call, -, ht⟩ := List.mem_flatMap.mp ht
  exact Call.inside_of_mem_accepted ht

end Empty

/-! ### Local matrices -/

theorem getElem?_filterMap_of_isSome {β γ : Type} {f : β → Option γ} {xs : List β}
    (h : ∀ x ∈ xs, (f x).isSome) (k : Nat) : (xs.filterMap f)[k]? = xs[k]?.bind f := by
  induction xs generalizing k with
  | nil => simp
  | cons x xs ih =>
    obtain ⟨hx, hxs⟩ := List.forall_mem_cons.mp h
    obtain ⟨y, hy⟩ := Option.isSome_iff_exists.mp hx
    rw [List.filterMap_cons_some hy]
    cases k with
    | zero => simp [hy]
    | succ k => simpa using ih hxs k

theorem isSome_get? {m : Dense α} {row col : Nat} (hrow : row < m.nrows) (hcol : col < m.ncols) :
    (m.get? row col).isSome := by
  have hplace : row * m.ncols + col < m.entries.size := by
    rw [m.size_entries]
    exact Lattice.place_lt hrow hcol
  rw [Dense.get?, if_pos ⟨hrow, hcol⟩, Array.getElem?_eq_getElem hplace]
  rfl

variable {indices : List Nat} {m : Dense α}

theorem isSome_localEntry (h : m.nrows = indices.length ∧ m.ncols = indices.length) {col : Nat}
    (hcol : col < indices.length) (j : Nat) : ∀ x ∈ indices.zipIdx,
      ((m.get? x.2 col).map fun v => (⟨x.1, j, v⟩ : Triplet α)).isSome := by
  intro x hx
  have hrow : x.2 < indices.length := (List.mem_zipIdx' hx).1
  rw [Option.isSome_map]
  exact isSome_get? (h.1 ▸ hrow) (h.2 ▸ hcol)

theorem length_localColumn (h : m.nrows = indices.length ∧ m.ncols = indices.length) :
    ∀ x ∈ indices.zipIdx, (indices.zipIdx.filterMap fun (i, row) =>
      (m.get? row x.2).map fun v => (⟨i, x.1, v⟩ : Triplet α)).length = indices.length := by
  intro x hx
  rw [List.filterMap_length_eq_length.mpr (isSome_localEntry h (List.mem_zipIdx' hx).1 x.1),
    List.length_zipIdx]

theorem length_localTriplets (h : m.nrows = indices.length ∧ m.ncols = indices.length) :
    (localTriplets indices m).length = indices.length * indices.length := by
  rw [localTriplets, List.flatMap, length_flatten_blocks (List.forall_mem_map.mpr
    (length_localColumn h)), List.length_map, List.length_zipIdx]

theorem getElem?_localTriplets (h : m.nrows = indices.length ∧ m.ncols = indices.length)
    (row col : Fin indices.length) :
    (localTriplets indices m)[col.val * indices.length + row.val]? =
      (m.get? row col).map fun v => ⟨indices[row], indices[col], v⟩ := by
  have hzip (k : Fin indices.length) : indices.zipIdx[k.val]? = some (indices[k], k.val) := by
    simp
  rw [localTriplets, getElem?_flatMap_blocks (length_localColumn h) row.isLt, hzip,
    Option.bind_some, getElem?_filterMap_of_isSome (isSome_localEntry h col.isLt _), hzip,
    Option.bind_some]

end Builder

/-! ### From calls to the matrix -/

namespace Builder

variable [Scalar α]

theorem totals_run (nrows ncols : Nat) (calls : List (Call α)) :
    Csr.Totals nrows ncols (kept nrows ncols calls) ∅
      (Csr.ofTriplets nrows ncols ((empty nrows ncols).run calls).entries) := by
  rw [entries_run_empty]
  exact Csr.totals_ofTriplets fun t ht => (kept_inside nrows ncols calls t ht).1

theorem finalize_run_eq_ok {nrows ncols : Nat} {calls : List (Call α)} {essential : List Nat}
    {a : Csr α} (h : (((empty nrows ncols).run calls).finalize essential).result = .ok a) :
    (nrows + 1 ≤ Size.maxEntries ∧ ncols ≤ Size.maxEntries) ∧
      Csr.Totals nrows ncols (kept nrows ncols calls) (a.effective essential) a := by
  rw [Assembly.finalize_eq_eliminate, nrows_run_empty, ncols_run_empty] at h
  obtain ⟨_, hrows, h⟩ := bind_eq_ok.mp h
  obtain ⟨_, hcols, h⟩ := bind_eq_ok.mp h
  obtain ⟨b, hb, htotals⟩ := (totals_run nrows ncols calls).eliminate essential
  obtain rfl : b = a := Except.ok.inj (hb.symm.trans h)
  exact ⟨⟨Size.le_of_reserve hrows, Size.le_of_reserve hcols⟩, htotals⟩

/-- Every run of calls, whichever of them end early, keeps what each call keeps, and finalizes
to the sum of that in the order of arrival, without the essential degrees of freedom. Of the
conversion to rows nothing but the order of the sums matters. -/
theorem finalize_run (nrows ncols : Nat) (calls : List (Call α)) (essential : List Nat) :
    let b := (empty nrows ncols).run calls
    let ts := kept nrows ncols calls
    (∀ (c : Builder α) (call : Call α), c.Applied call (call.accepted c.nrows c.ncols)) ∧
    (∀ (indices : List Nat) (m : Dense α), (Call.addLocal indices m).Fits →
      (Call.addLocal indices m).offered.length = indices.length * indices.length ∧
      ∀ row col : Fin indices.length, ∃ v, m.get? row col = some v ∧
        (Call.addLocal indices m).offered[col.val * indices.length + row.val]? =
          some ⟨indices[row], indices[col], v⟩) ∧
    b.entries.toList = ts ∧ b.pushed = ts.length ∧
    (nrows + 1 ≤ Size.maxEntries ∧ ncols ≤ Size.maxEntries →
      ∃ a, (b.finalize essential).result = .ok a) ∧
    (∀ a, (b.finalize essential).result = .ok a ↔
      (nrows + 1 ≤ Size.maxEntries ∧ ncols ≤ Size.maxEntries) ∧
        Csr.Totals nrows ncols ts (a.effective essential) a) ∧
    (∀ c, Csr.Totals nrows ncols ts ∅ c ↔ c = Csr.ofTriplets nrows ncols b.entries) ∧
    ∀ c, Csr.Totals nrows ncols ts ∅ c → ∃ a, (c.eliminate essential).result = .ok a ∧
      Csr.Totals nrows ncols ts (a.effective essential) a := by
  intro b ts
  have hexists (hsize : nrows + 1 ≤ Size.maxEntries ∧ ncols ≤ Size.maxEntries) :
      ∃ a, (b.finalize essential).result = .ok a := by
    apply Assembly.exists_finalize essential
    · rw [nrows_run_empty]
      exact hsize.1
    · rw [ncols_run_empty]
      exact hsize.2
  refine ⟨applied, fun indices m hfits => ?_, ?_, ?_, hexists, fun a => ⟨finalize_run_eq_ok, ?_⟩,
    fun c => ⟨fun h => ?_, ?_⟩, fun c h => h.eliminate essential⟩
  · have hoffered : (Call.addLocal indices m).offered = localTriplets indices m := if_pos hfits
    rw [hoffered]
    refine ⟨length_localTriplets hfits, fun row col => ?_⟩
    have hrow : row.val < m.nrows := hfits.1.symm ▸ row.isLt
    have hcol : col.val < m.ncols := hfits.2.symm ▸ col.isLt
    obtain ⟨v, hv⟩ := Option.isSome_iff_exists.mp (isSome_get? hrow hcol)
    exact ⟨v, hv, by rw [getElem?_localTriplets hfits, hv]; rfl⟩
  · exact congrArg Array.toList (entries_run_empty nrows ncols calls)
  · exact congrArg Array.size (entries_run_empty nrows ncols calls)
  · rintro ⟨hsize, htotals⟩
    obtain ⟨a', ha'⟩ := hexists hsize
    have htotals' := (finalize_run_eq_ok ha').2
    have heffective : a'.effective essential = a.effective essential := by
      rw [Csr.effective, Csr.effective, htotals.nrows_eq, htotals.ncols_eq, htotals'.nrows_eq,
        htotals'.ncols_eq]
    rw [heffective] at htotals'
    rw [ha', htotals'.unique htotals]
  · exact h.unique (totals_run nrows ncols calls)
  · rintro rfl
    exact totals_run nrows ncols calls

def patch : Dense ℚ := ⟨2, 2, #[7, 8, 9, 10], rfl⟩

/-- Calls on a matrix with two rows and three columns: a sequence that leaves it, a local matrix
over too few indices, one that leaves it in its first column, and single contributions. -/
def interrupted : List (Call ℚ) :=
  [.addTriplets [⟨0, 1, 1⟩, ⟨2, 0, 9⟩, ⟨0, 0, 5⟩], .addLocal [0] patch, .addLocal [1, 2] patch,
    .add ⟨0, 1, 2⟩, .add ⟨1, 2, 0⟩, .add ⟨0, 0, 4⟩]

theorem finalize_run_interrupted :
    (Call.addLocal [1, 2] patch).Fits ∧ (2 + 1 ≤ Size.maxEntries ∧ 3 ≤ Size.maxEntries) ∧
    kept 2 3 interrupted = [⟨0, 1, 1⟩, ⟨1, 1, 7⟩, ⟨0, 1, 2⟩, ⟨1, 2, 0⟩, ⟨0, 0, 4⟩] ∧
    ∃ a, (((empty 2 3).run interrupted).finalize [5, 1]).result = .ok a ∧
      Csr.Totals 2 3 (kept 2 3 interrupted) (a.effective [5, 1]) a ∧
      a.rows = #[[(0, 4), (1, 0)], [(1, 7), (2, 0)]] := by
  have hfits : (Call.addLocal [1, 2] patch).Fits := ⟨rfl, rfl⟩
  have hsize : 2 + 1 ≤ Size.maxEntries ∧ 3 ≤ Size.maxEntries := by decide
  obtain ⟨-, -, -, -, hexists, htotals, -⟩ := finalize_run 2 3 interrupted [5, 1]
  obtain ⟨a, ha⟩ := hexists hsize
  have hmatrix : (((empty 2 3).run interrupted).finalize [5, 1]).result =
      .ok ⟨3, #[[(0, 4), (1, 0)], [(1, 7), (2, 0)]]⟩ := rfl
  obtain rfl := Except.ok.inj (hmatrix.symm.trans ha)
  exact ⟨hfits, hsize, rfl, _, hmatrix, ((htotals _).mp hmatrix).2, rfl⟩

end Builder

end LowOrderRefinement
