import LowOrderRefinement.Journal
import LowOrderRefinement.Scalar
import LowOrderRefinement.Size
import LowOrderRefinement.Sparse.Triplet

/-! Matrices in compressed row storage. A row holds its stored entries with their
columns in increasing order. Contributions to one entry are summed, and an entry
that received only zeros stays stored. In which order they are summed is up to the
conversion from contributions to rows: `ofTriplets` is one that adds them as they
arrive, and what depends on the order asks for it as a hypothesis. Elimination of
degrees of freedom sets entries to zero and keeps the pattern of stored entries. -/

namespace LowOrderRefinement

variable {α : Type}

/-- The stored entries of a row: columns, in increasing order, with values. -/
abbrev Row (α : Type) := List (Nat × α)

namespace Row

/-- Adds a value to an entry of a row, which becomes stored if it was not. -/
def deposit [Add α] (col : Nat) (value : α) : Row α → Row α
  | [] => [(col, value)]
  | (c, v) :: row =>
    if col < c then (col, value) :: (c, v) :: row
    else if col = c then (c, v + value) :: row
    else (c, v) :: deposit col value row

def find? (col : Nat) : Row α → Option α
  | [] => none
  | (c, v) :: row => if col = c then some v else find? col row

def Sorted (row : Row α) : Prop := row.Pairwise fun a b => a.1 < b.1

theorem find?_of_lt {col : Nat} {row : Row α} (h : ∀ e ∈ row, col < e.1) :
    find? col row = none := by
  induction row with
  | nil => rfl
  | cons d row ih =>
    have hd := h d List.mem_cons_self
    rw [find?, if_neg (by omega), ih fun e he => h e (List.mem_cons_of_mem d he)]

variable [Add α]

theorem mem_deposit {col : Nat} {value : α} {row : Row α} {e : Nat × α}
    (h : e ∈ deposit col value row) : e.1 = col ∨ ∃ d ∈ row, d.1 = e.1 := by
  induction row with
  | nil => simp_all [deposit]
  | cons d row ih => grind [deposit]

theorem Sorted.deposit {col : Nat} {value : α} {row : Row α} (h : Sorted row) :
    Sorted (Row.deposit col value row) := by
  induction row with
  | nil => simp [Row.deposit, Sorted]
  | cons d row ih =>
    obtain ⟨hd, hrow⟩ := List.pairwise_cons.mp h
    rw [Row.deposit]
    split
    · refine List.pairwise_cons.mpr ⟨fun e he => ?_, h⟩
      rcases List.mem_cons.mp he with rfl | he
      · assumption
      · have := hd e he
        omega
    · split
      · exact List.pairwise_cons.mpr ⟨hd, hrow⟩
      · refine List.pairwise_cons.mpr ⟨fun e he => ?_, ih hrow⟩
        rcases mem_deposit he with he | ⟨c, hc, he⟩
        · simp only [he]
          omega
        · rw [← he]
          exact hd c hc

theorem find?_deposit_of_ne {col c : Nat} {value : α} {row : Row α} (h : c ≠ col) :
    find? c (deposit col value row) = find? c row := by
  induction row with
  | nil => simp [deposit, find?, h]
  | cons d row ih => grind [deposit, find?]

/-- A contribution is added on the right of what its column holds. -/
theorem find?_deposit_self {col : Nat} {value : α} {row : Row α} (h : Sorted row) :
    find? col (deposit col value row) =
      some (((find? col row).map (· + value)).getD value) := by
  induction row with
  | nil => simp [deposit, find?]
  | cons d row ih =>
    obtain ⟨hd, hrow⟩ := List.pairwise_cons.mp h
    rw [deposit, find?]
    split
    · have : find? col row = none := find?_of_lt fun e he => by
        have := hd e he
        omega
      have hne : ¬col = d.1 := by omega
      simp [find?, hne, this]
    · split
      · simp [find?, *]
      · simpa [find?, *] using ih hrow

end Row

/-- A matrix in compressed row storage. -/
structure Csr (α : Type) where
  ncols : Nat
  rows : Array (Row α)

namespace Csr

def nrows (m : Csr α) : Nat := m.rows.size

/-- The stored entry in a row and column. -/
def entry? (m : Csr α) (row col : Nat) : Option α :=
  Row.find? col (m.rows.getD row [])

def nnz (m : Csr α) : Nat := m.rows.foldl (fun n row => n + row.length) 0

/-- Where the entries of each row start in the sequence of all entries, and where the last row
ends. -/
def offsets (m : Csr α) : Array Nat :=
  m.rows.foldl (fun acc row => acc.push (acc.back?.getD 0 + row.length)) #[0]

def cols (m : Csr α) : List Nat := m.rows.toList.flatMap fun row => row.map (·.1)

def values (m : Csr α) : List α := m.rows.toList.flatMap fun row => row.map (·.2)

def triplets (m : Csr α) : List (Triplet α) :=
  m.rows.toList.zipIdx.flatMap fun (row, i) => row.map fun (j, v) => ⟨i, j, v⟩

/-- The positions of all stored entries, row by row. -/
def pattern (m : Csr α) : List (Nat × Nat) := m.triplets.map fun t => (t.row, t.col)

def empty (nrows ncols : Nat) : Csr α := ⟨ncols, Array.replicate nrows []⟩

def add [Add α] (m : Csr α) (t : Triplet α) : Csr α :=
  { m with rows := m.rows.modify t.row (Row.deposit t.col t.value) }

/-- The matrix that sums the contributions in the order in which they are listed. -/
def ofTriplets [Add α] (nrows ncols : Nat) (ts : Array (Triplet α)) : Csr α :=
  ts.foldl add (empty nrows ncols)

def mapEntries {β : Type} (m : Csr α) (f : Nat → Nat → α → β) : Csr β :=
  { ncols := m.ncols
    rows := m.rows.mapIdx fun i row => row.map fun (j, v) => (j, f i j v) }

/-- Which of the given degrees of freedom exist, as a table of the rows or columns that there are
fewer of. -/
def essentialTable (m : Csr α) (essential : List Nat) : Array Bool :=
  essential.foldl (fun table dof => table.setIfInBounds dof true)
    (Array.replicate (min m.nrows m.ncols) false)

/-- Sets every entry beside the diagonal to zero whose row or column is essential. -/
def clear [Zero α] (m : Csr α) (isEssential : Nat → Bool) : Csr α :=
  m.mapEntries fun i j v => if i ≠ j ∧ (isEssential i || isEssential j) then 0 else v

/-- Sets every entry beside the diagonal to zero that is in the row or column of an essential
degree of freedom. Degrees of freedom outside of the matrix are reported and ignored. -/
def eliminate [Zero α] (m : Csr α) (essential : List Nat) : Journaled Fault (Csr α) := do
  let n := min m.nrows m.ncols
  let ignored := (essential.filter fun dof => n ≤ dof).length
  if 0 < ignored then
    Journaled.report .warn ("Ignored " ++ toString ignored ++
      " essential degrees of freedom outside of the " ++ toString m.nrows ++ "x" ++
      toString m.ncols ++ " matrix")
  let table := m.essentialTable essential
  return m.clear fun i => table.getD i false

end Csr

/-- A way to get from contributions to rows: a matrix for each shape and each list of contributions
inside of it. -/
abbrev Conversion (α : Type) := Nat → Nat → Array (Triplet α) → Csr α

end LowOrderRefinement
