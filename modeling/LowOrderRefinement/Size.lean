/-! Sizes, indices and offsets are natural numbers that have to fit in one 64-bit
word. The operations here return the exact result when it fits and a fault
otherwise; a fault also stands for every other broken requirement that leaves a
computation without a result, such as an index outside of its array. Faults are
kept apart from the errors about the input of an assembly. -/

namespace LowOrderRefinement

-- powers and products have one meaning, whatever is imported
attribute [local instance (1100)] instPowNat One.ofOfNat1

/-- Why a computation has no result. -/
inductive Fault
  | sizeOverflow
  | outOfRange
  | wrongLength
  | emptyExtent
  | outOfStorage
  | notAdjacent
  | singular
  | unsupported
deriving DecidableEq

/-- A result, unless a requirement was broken on the way to it. -/
abbrev Checked := Except Fault

def require (holds : Bool) (otherwise : Fault) : Checked Unit :=
  if holds then .ok () else .error otherwise

@[simp] theorem require_eq_ok {holds : Bool} {otherwise : Fault} {u : Unit} :
    require holds otherwise = .ok u ↔ holds = true := by
  simp [require]

/-- Two computations in a row succeed exactly when each of them does. -/
theorem bind_eq_ok {ε α β : Type} {x : Except ε α} {f : α → Except ε β} {b : β} :
    (x >>= f) = .ok b ↔ ∃ a, x = .ok a ∧ f a = .ok b := by
  cases x <;> simp [bind, Except.bind]

namespace Size

/-- The least number that is too large for a size. -/
def limit : Nat := 2 ^ (64 : Nat)

def fit (n : Nat) : Checked Nat :=
  if n < limit then .ok n else .error .sizeOverflow

@[simp] theorem fit_eq_ok {n m : Nat} : fit n = .ok m ↔ n < limit ∧ n = m := by
  unfold fit
  split <;> simp [*]

def add (a b : Nat) : Checked Nat := fit (a + b)

def mul (a b : Nat) : Checked Nat := fit (a * b)

@[simp] theorem add_eq_ok {a b n : Nat} : add a b = .ok n ↔ a + b < limit ∧ a + b = n :=
  fit_eq_ok

@[simp] theorem mul_eq_ok {a b n : Nat} : mul a b = .ok n ↔ a * b < limit ∧ a * b = n :=
  fit_eq_ok

def pow (base exponent : Nat) : Checked Nat := fit (base ^ exponent)

@[simp] theorem pow_eq_ok {b e n : Nat} : pow b e = .ok n ↔ b ^ e < limit ∧ b ^ e = n :=
  fit_eq_ok

/-- The product from left to right, all of whose partial products have to fit. -/
def product (ns : List Nat) : Checked Nat :=
  ns.foldlM mul 1

theorem foldlM_mul_eq_ok {ns : List Nat} {start n : Nat} (h : ns.foldlM mul start = .ok n) :
    n = start * ns.prod := by
  induction ns generalizing start with
  | nil => simpa [pure, Except.pure, eq_comm] using h
  | cons m ns ih =>
    rw [List.foldlM_cons] at h
    cases hm : mul start m with
    | error e => rw [hm] at h; cases h
    | ok k =>
      rw [hm] at h
      rw [ih h, List.prod_cons, ← (mul_eq_ok.mp hm).2, Nat.mul_assoc]

theorem product_eq_ok {ns : List Nat} {n : Nat} (h : product ns = .ok n) : n = ns.prod := by
  rw [foldlM_mul_eq_ok h, Nat.one_mul]

def productFits (ns : List Nat) : Bool := (product ns).toBool

theorem product_of_fits {ns : List Nat} (h : productFits ns) : product ns = .ok ns.prod := by
  unfold productFits at h
  cases hp : product ns with
  | error e => rw [hp] at h; cases h
  | ok n => rw [product_eq_ok hp]

/-- The largest number of entries that a single array can hold: every entry has an address of its
own, and a process has `2 ^ 47` of them. -/
def maxEntries : Nat := 2 ^ (47 : Nat) - 1

/-- Checks that an array of the given number of entries can exist. -/
def reserve (entries : Nat) : Checked Unit :=
  require (entries ≤ maxEntries) .outOfStorage

end Size

def entryAt {α : Type} (xs : Array α) (i : Nat) : Checked α :=
  if h : i < xs.size then .ok xs[i] else .error .outOfRange

/-- The entries from `start` up to and not including `stop`, which have to be in range. -/
def slice {α : Type} (xs : Array α) (start stop : Nat) : Checked (Array α) :=
  if start ≤ stop ∧ stop ≤ xs.size then .ok (xs.extract start stop) else .error .outOfRange

end LowOrderRefinement
