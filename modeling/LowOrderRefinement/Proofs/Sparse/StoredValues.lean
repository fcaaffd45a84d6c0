import LowOrderRefinement.Proofs.Sparse.StoredPlaces

/-! The entries of a matrix in any arithmetic. An entry holds the values that were contributed
to it, added from left to right in the order in which they arrive, and nothing is
stored where nothing was contributed. No other contribution and no other row or
column matters to it, so that renaming rows and columns moves entries without
changing them. -/

namespace LowOrderRefinement

variable {α β : Type}

namespace Row

theorem find?_map (f : Nat → α → β) (row : Row α) (j : Nat) :
    Row.find? j (row.map fun (c, v) => (c, f c v)) = (Row.find? j row).map (f j) := by
  induction row with
  | nil => rfl
  | cons e row ih =>
    rw [List.map_cons, Row.find?, Row.find?, ih]
    split
    next h => rw [h, Option.map_some]
    next => rfl

theorem isSome_find? (row : Row α) (j : Nat) :
    (Row.find? j row).isSome ↔ j ∈ row.map (·.1) := by
  induction row with
  | nil => simp [Row.find?]
  | cons e row ih =>
    rw [Row.find?, List.map_cons, List.mem_cons, ← ih]
    by_cases h : j = e.1
    · simp [h]
    · rw [if_neg h, or_iff_right h]

end Row

theorem nodup_flatMap_map {γ δ : Type} {pair : β → γ → δ}
    (hpair : ∀ {x y x' y'}, pair x y = pair x' y' → x = x' ∧ y = y') {xs : List β}
    (hxs : xs.Nodup) {row : β → List γ} (hrow : ∀ x ∈ xs, (row x).Nodup) :
    (xs.flatMap fun x => (row x).map (pair x)).Nodup := by
  rw [List.nodup_flatMap]
  constructor
  · intro x hx
    exact (hrow x hx).map fun y y' h => (hpair h).2
  · refine hxs.imp fun {x x'} hne p hp hp' => ?_
    obtain ⟨y, -, rfl⟩ := List.mem_map.mp hp
    obtain ⟨y', -, h⟩ := List.mem_map.mp hp'
    exact hne (hpair h).1.symm

/-! ### Values that arrive one after the other -/

/-- Adds a value on the right of what is held, if anything is. -/
def contribute [Add α] (held : Option α) (value : α) : Option α :=
  some ((held.map (· + value)).getD value)

/-- The values contributed to the entry in a row and column, in the order of their arrival. -/
def contributed (ts : List (Triplet α)) (i j : Nat) : List α :=
  (ts.filter fun t => t.row = i ∧ t.col = j).map (·.value)

theorem contributed_cons (t : Triplet α) (ts : List (Triplet α)) (i j : Nat) :
    contributed (t :: ts) i j =
      if t.row = i ∧ t.col = j then t.value :: contributed ts i j else contributed ts i j := by
  rw [contributed, List.filter_cons]
  by_cases h : t.row = i ∧ t.col = j
  · rw [if_pos h, if_pos (decide_eq_true h)]
    rfl
  · rw [if_neg h, if_neg (by simpa using h)]
    rfl

theorem contributed_flatMap (xs : List β) (f : β → List (Triplet α)) (i j : Nat) :
    contributed (xs.flatMap f) i j = xs.flatMap fun x => contributed (f x) i j := by
  simp only [contributed, List.filter_flatMap, List.map_flatMap]

theorem contributed_relabel {π : Nat → Nat} (hπ : π.Injective) (ts : List (Triplet α))
    (i j : Nat) : contributed (ts.map (·.relabel π)) (π i) (π j) = contributed ts i j := by
  induction ts with
  | nil => rfl
  | cons t ts ih =>
    rw [List.map_cons, contributed_cons, contributed_cons, ih]
    exact if_congr (and_congr hπ.eq_iff hπ.eq_iff) rfl rfl

theorem exists_mem_relabel {π : Nat → Nat} (hπ : π.Injective) {ts : List (Triplet α)} {i j : Nat} :
    (∃ t ∈ ts.map (·.relabel π), t.row = π i ∧ t.col = π j) ↔
      ∃ t ∈ ts, t.row = i ∧ t.col = j := by
  simp [Triplet.relabel, hπ.eq_iff]

namespace Csr

/-! ### Stored entries -/

theorem isSome_entry? (m : Csr α) (i j : Nat) : (m.entry? i j).isSome ↔ j ∈ m.columns i :=
  Row.isSome_find? _ j

theorem lt_of_mem_columns {m : Csr α} {i j : Nat} (h : j ∈ m.columns i) : i < m.nrows := by
  by_contra hi
  rw [columns, Array.getD_eq_getD_getElem?, Array.getElem?_eq_none (Nat.not_lt.mp hi)] at h
  cases h

theorem mem_pattern {m : Csr α} {i j : Nat} : (i, j) ∈ m.pattern ↔ j ∈ m.columns i := by
  rw [pattern_eq, List.mem_flatMap]
  constructor
  · rintro ⟨k, -, hk⟩
    obtain ⟨c, hc, heq⟩ := List.mem_map.mp hk
    obtain ⟨rfl, rfl⟩ := Prod.mk.inj heq
    exact hc
  · intro h
    exact ⟨i, List.mem_range.mpr (lt_of_mem_columns h), List.mem_map_of_mem h⟩

theorem Ordered.nodup_pattern {m : Csr α} (h : m.Ordered) : m.pattern.Nodup := by
  rw [pattern_eq]
  exact nodup_flatMap_map Prod.mk.inj List.nodup_range fun i _ =>
    (h.pairwise_columns i).imp Nat.ne_of_lt

theorem nnz_eq (m : Csr α) : m.nnz = m.pattern.length := by
  have hrows (f : Row α × Nat → List (Triplet α)) (hf : ∀ p, (f p).length = p.1.length)
      (rows : List (Row α)) (start held : Nat) : rows.foldl (fun n row => n + row.length) held =
        held + ((rows.zipIdx start).flatMap f).length := by
    induction rows generalizing start held with
    | nil => rfl
    | cons row rows ih =>
      rw [List.foldl_cons, ih (start + 1), List.zipIdx_cons, List.flatMap_cons,
        List.length_append, hf, Nat.add_assoc]
  rw [nnz, ← Array.foldl_toList, hrows _ (fun _ => List.length_map _) _ 0, Nat.zero_add, pattern,
    List.length_map, triplets]

/-! ### Sums of contributions -/

section Add

variable [Add α] {m : Csr α} {ts : List (Triplet α)}

theorem entry?_add (h : m.Ordered) {t : Triplet α} (ht : t.row < m.nrows) (i j : Nat) :
    entry? (m.add t) i j =
      if t.row = i ∧ t.col = j then contribute (m.entry? i j) t.value else m.entry? i j := by
  unfold entry?
  rw [getD_rows_add]
  by_cases hrow : t.row = i
  · rw [if_pos ⟨hrow, hrow ▸ ht⟩]
    by_cases hcol : t.col = j
    · rw [if_pos ⟨hrow, hcol⟩, ← hcol, Row.find?_deposit_self (h i)]
      rfl
    · rw [if_neg fun hh => hcol hh.2, Row.find?_deposit_of_ne (Ne.symm hcol)]
  · rw [if_neg fun hh => hrow hh.1, if_neg fun hh => hrow hh.1]

theorem entry?_foldl_add (h : m.Ordered) (hts : ∀ t ∈ ts, t.row < m.nrows) (i j : Nat) :
    entry? (ts.foldl add m) i j = (contributed ts i j).foldl contribute (m.entry? i j) := by
  induction ts generalizing m with
  | nil => rfl
  | cons t ts ih =>
    obtain ⟨ht, hts⟩ := List.forall_mem_cons.mp hts
    rw [List.foldl_cons, ih (h.add t) (fun u hu => by rw [nrows_add]; exact hts u hu),
      entry?_add h ht, contributed_cons]
    split <;> rfl

/-- An entry adds up what is contributed to it, from left to right. -/
theorem entry?_ofTriplets {nrows ncols : Nat} (hts : ∀ t ∈ ts, t.row < nrows) (i j : Nat) :
    entry? (ofTriplets nrows ncols ts.toArray) i j =
      (contributed ts i j).foldl contribute none := by
  rw [ofTriplets, List.foldl_toArray,
    entry?_foldl_add (ordered_empty nrows ncols) (by simpa using hts), entry?, getD_rows_empty]
  rfl

end Add

theorem entry?_clear [Zero α] (m : Csr α) (isEssential : Nat → Bool) (i j : Nat) :
    entry? (m.clear isEssential) i j =
      (m.entry? i j).map fun v => if i ≠ j ∧ (isEssential i || isEssential j) then 0 else v := by
  rw [clear, entry?, getD_rows_mapEntries]
  exact Row.find?_map (fun c v => if i ≠ c ∧ (isEssential i || isEssential c) then 0 else v) _ j

end Csr

end LowOrderRefinement
