import Mathlib.Order.Bounds.Basic
import LowOrderRefinement.Proofs.Errors.Faults

/-! The check of an ordering. The entries are visited one after the other, and a mask holds
which nodes none of the entries so far has named. The first entry that names no node or
a node that is not left in the mask ends the check; when there is none, as many different
nodes are named as there are, and the ordering is a permutation. An assembly that gets as
far as this check ends with what it reports. -/

namespace LowOrderRefinement

variable {α : Type}

namespace Space

/-! ### One entry, then all -/

/-- The entry at a position of an ordering names no node, or one that an earlier entry names. -/
def Offends (nodes : Nat) (ordering : List Nat) (i : Nat) : Prop :=
  ∃ x, ordering[i]? = some x ∧ (nodes ≤ x ∨ ∃ j < i, ordering[j]? = some x)

/-- What a mask holds after some entries: the nodes that none of them names are not yet seen. -/
def Masks (nodes : Nat) (visited : List Nat) (seen : Array Bool) : Prop :=
  ∀ x, seen[x]? = some false ↔ x < nodes ∧ x ∉ visited

theorem masks_replicate (nodes : Nat) : Masks nodes [] (Array.replicate nodes false) := by
  intro x
  simp [Array.getElem?_replicate]

section Step

variable {nodes x : Nat} {visited : List Nat} {seen : Array Bool}

/-- The entry after those visited offends when it names no node that is left. -/
theorem offends_length_iff {rest : List Nat} :
    Offends nodes (visited ++ x :: rest) visited.length ↔ nodes ≤ x ∨ x ∈ visited := by
  have hmem : (∃ j < visited.length, (visited ++ x :: rest)[j]? = some x) ↔ x ∈ visited := by
    constructor
    · rintro ⟨j, hj, hx⟩
      rw [List.getElem?_append_left hj] at hx
      exact List.mem_of_getElem? hx
    · intro hx
      obtain ⟨j, hj, hget⟩ := List.getElem_of_mem hx
      exact ⟨j, hj, by rw [List.getElem?_append_left hj, List.getElem?_eq_getElem hj, hget]⟩
  have hget : (visited ++ x :: rest)[visited.length]? = some x := by simp
  simp only [Offends, hget, Option.some.injEq, exists_eq_left', hmem]

theorem Masks.markEntry_of_left (h : Masks nodes visited seen) (hx : x < nodes)
    (hnew : x ∉ visited) (i : Nat) :
    (markEntry seen (x, i) : Outcome α (Array Bool)) = .ok (seen.setIfInBounds x true) ∧
      Masks nodes (visited ++ [x]) (seen.setIfInBounds x true) := by
  have hleft := (h x).mpr ⟨hx, hnew⟩
  refine ⟨by simp only [markEntry, hleft], fun y => ?_⟩
  rw [Array.getElem?_setIfInBounds, List.mem_append, List.mem_singleton]
  split
  next heq =>
    subst y
    split <;> simp
  next hne => rw [h y, not_or, and_iff_left (Ne.symm hne)]

theorem Masks.markEntry_of_not_left (h : Masks nodes visited seen) (hx : nodes ≤ x ∨ x ∈ visited)
    (i : Nat) :
    (markEntry seen (x, i) : Outcome α (Array Bool)) = .error (.error (.invalidOrdering i)) := by
  have hgone : seen[x]? ≠ some false := by
    rw [Ne, h x, not_and_or, not_lt, not_not]
    exact hx
  unfold markEntry
  split
  next heq => exact absurd heq hgone
  next => rfl

end Step

/-- Visiting the rest of an ordering fails at the least position after the entries visited so far
that offends, and at no other. -/
theorem Masks.foldlM_eq_error {nodes : Nat} {visited rest : List Nat} {seen : Array Bool}
    (h : Masks nodes visited seen) {failure : Failure α} :
    (rest.zipIdx visited.length).foldlM markEntry seen = .error failure ↔
      ∃ i, IsLeast {i | visited.length ≤ i ∧ Offends nodes (visited ++ rest) i} i ∧
        failure = .error (.invalidOrdering i) := by
  induction rest generalizing visited seen with
  | nil =>
    simp only [List.zipIdx_nil, List.foldlM_nil, pure, Except.pure, reduceCtorEq, false_iff]
    rintro ⟨i, ⟨⟨hi, x, hx, -⟩, -⟩, -⟩
    rw [List.append_nil, List.getElem?_eq_none hi] at hx
    cases hx
  | cons x rest ih =>
    rw [List.zipIdx_cons, List.foldlM_cons]
    by_cases hx : nodes ≤ x ∨ x ∈ visited
    · have hleast : IsLeast {i | visited.length ≤ i ∧ Offends nodes (visited ++ x :: rest) i}
          visited.length := ⟨⟨le_rfl, offends_length_iff.mpr hx⟩, fun i hi => hi.1⟩
      rw [h.markEntry_of_not_left hx, error_bind, Except.error.injEq]
      constructor
      · rintro rfl
        exact ⟨_, hleast, rfl⟩
      · rintro ⟨i, hi, rfl⟩
        rw [hi.unique hleast]
    · obtain ⟨hlt, hnew⟩ := not_or.mp hx
      obtain ⟨hmark, hmasks⟩ := h.markEntry_of_left (α := α) (not_le.mp hlt) hnew visited.length
      -- the entry that has just been visited does not offend, so the search goes on behind it
      have hbehind : {i | visited.length + 1 ≤ i ∧ Offends nodes (visited ++ [x] ++ rest) i} =
          {i | visited.length ≤ i ∧ Offends nodes (visited ++ x :: rest) i} := by
        ext i
        rw [List.append_assoc, List.singleton_append, Set.mem_ofPred_eq, Set.mem_ofPred_eq,
          Nat.succ_le_iff]
        refine and_congr_left fun hi => ⟨le_of_lt, fun hle => lt_of_le_of_ne hle ?_⟩
        rintro rfl
        exact hx (offends_length_iff.mp hi)
      have hrest := ih hmasks
      rw [List.length_append, List.length_singleton, hbehind] at hrest
      rw [hmark, ok_bind, hrest]

theorem checkEntries_eq_error {nodes : Nat} {ordering : List Nat} {failure : Failure α} :
    checkEntries nodes ordering = .error failure ↔
      ∃ i, IsLeast {i | Offends nodes ordering i} i ∧ failure = .error (.invalidOrdering i) := by
  have hrun : (ordering.zipIdx ([] : List Nat).length).foldlM markEntry
      (Array.replicate nodes false) = .error failure ↔ _ := (masks_replicate nodes).foldlM_eq_error
  simpa only [checkEntries, discard_eq_error, List.length_nil, Nat.zero_le, true_and,
    List.nil_append] using hrun

/-! ### The whole check -/

section Check

variable {nodes : Nat} {ordering : Array Nat}

theorem checkOrdering_of_size_ne (h : ordering.size ≠ nodes) :
    (checkOrdering nodes ordering : Outcome α Unit) =
      .error (.error (.mismatch .orderingLength nodes ordering.size)) := by
  rw [checkOrdering, Outcome.agree, if_neg (Ne.symm h)]
  rfl

theorem checkOrdering_of_size_eq (h : ordering.size = nodes) :
    (checkOrdering nodes ordering : Outcome α Unit) = checkEntries nodes ordering.toList := by
  rw [checkOrdering, Outcome.agree, if_pos h.symm, ok_bind]

/-- An ordering of the right length that is not a permutation is refused at the least position that
offends. -/
theorem checkOrdering_of_not_perm (h : ordering.size = nodes)
    (hperm : ¬ordering.toList.Perm (List.range nodes)) :
    ∃ i, IsLeast {i | Offends nodes ordering.toList i} i ∧
      (checkOrdering nodes ordering : Outcome α Unit) = .error (.error (.invalidOrdering i)) := by
  cases hcheck : (checkOrdering nodes ordering : Outcome α Unit) with
  | ok u => exact absurd (checkOrdering_eq_ok.mp hcheck) hperm
  | error failure =>
    rw [checkOrdering_of_size_eq h] at hcheck
    obtain ⟨i, hleast, rfl⟩ := checkEntries_eq_error.mp hcheck
    exact ⟨i, hleast, rfl⟩

end Check

end Space

namespace Assembly

variable [Scalar α]

/-- With a nodal basis, a dimension that refinement and space share and an order that has a kernel,
an assembly is set up when the ordering passes its check. -/
theorem setup_eq_checkOrdering {r : Refinement α} {space : Space} {dim : Dimension}
    (hbasis : space.basis = .nodalTensor) (hspace : space.dim = dim.value)
    (hrefinement : r.dim = dim.value) (hpos : 0 < space.order) (hle : space.order ≤ maxOrder) :
    setup r space = (Space.checkOrdering ((space.order + 1) ^ dim.value) space.ordering).map
      fun _ => Setup.ofOrder dim space.order := by
  have hagree : (Outcome.agree .refinementDimension dim.value r.dim : Outcome α Unit) = .ok () :=
    agree_eq_ok.mpr hrefinement.symm
  have hkernel : (Kernel.select dim space.order : Outcome α (Kernel α)) =
      .ok (Kernel.ofOrder dim space.order) := select_eq_ok.mpr ⟨hpos, hle, rfl⟩
  unfold setup
  rw [if_neg (not_not.mpr hbasis), dimension_eq_ok.mpr hspace, ok_bind, hagree, ok_bind, hkernel,
    ok_bind, dim.elementDofs_of_le hle, lift_ok, ok_bind]
  cases Space.checkOrdering ((space.order + 1) ^ dim.value) space.ordering <;> rfl

/-- An assembly that is not set up does not get any further, and reports nothing on the way. -/
theorem assemble_of_setup_eq_error (schedule : Schedule) {r : Refinement α} {space : Space}
    (essential : List Nat) (options : Options α) {failure : Failure α}
    (h : setup r space = .error failure) :
    assemble schedule r space essential options = ⟨[], .error failure⟩ := by
  rw [assemble, assembleWith, accumulate, h]
  rfl

end Assembly

/-- The check of an ordering against a number of nodes accepts the lists of this length that are
permutations of the nodes. A list of another length is refused for its length, and one of this
length that is no permutation at the least position whose entry is not below the number of nodes
or occurs at an earlier position. With a nodal basis, one dimension and an order that has a kernel,
an assembly is set up exactly when the ordering of its space passes the check, and otherwise ends
with what the check reports. -/
theorem Space.checkOrdering_decides [Scalar α] (nodes : Nat) (ordering : Array Nat) :
    let result : Outcome α Unit := checkOrdering nodes ordering
    (result = .ok () ↔ ordering.size = nodes ∧ ordering.toList.Perm (List.range nodes)) ∧
    (ordering.size ≠ nodes →
      result = .error (.error (.mismatch .orderingLength nodes ordering.size))) ∧
    (ordering.size = nodes → ¬ordering.toList.Perm (List.range nodes) →
      ∃ i, IsLeast {i | Offends nodes ordering.toList i} i ∧
        result = .error (.error (.invalidOrdering i))) ∧
    ∀ (r : Refinement α) (space : Space) (dim : Dimension), space.basis = .nodalTensor →
      space.dim = dim.value → r.dim = dim.value → 0 < space.order → space.order ≤ maxOrder →
      nodes = (space.order + 1) ^ dim.value → ordering = space.ordering →
        Assembly.setup r space = result.map (fun _ => Assembly.Setup.ofOrder dim space.order) ∧
        ∀ (schedule : Schedule) (essential : List Nat) (options : Options α) (failure : Failure α),
          result = .error failure →
            Assembly.assemble schedule r space essential options = ⟨[], .error failure⟩ := by
  intro result
  refine ⟨?_, checkOrdering_of_size_ne, checkOrdering_of_not_perm, ?_⟩
  · rw [show result = .ok () ↔ _ from checkOrdering_eq_ok]
    refine ⟨fun hperm => ⟨?_, hperm⟩, fun h => h.2⟩
    simpa using hperm.length_eq
  · rintro r space dim hbasis hspace hrefinement hpos hle rfl rfl
    have hsetup := Assembly.setup_eq_checkOrdering hbasis hspace hrefinement hpos hle
    refine ⟨hsetup, fun schedule essential options failure hfailure => ?_⟩
    refine Assembly.assemble_of_setup_eq_error schedule essential options ?_
    rw [hsetup, show checkOrdering _ _ = .error failure from hfailure]
    rfl

/-- Of four nodes, an ordering that repeats its second entry is refused at the third position, also
by an assembly, and one with an entry that is too large at the position of that entry. -/
theorem Space.checkOrdering_decides_repeated :
    (checkOrdering 4 #[2, 0, 1, 3] : Outcome ℚ Unit) = .ok () ∧
    (checkOrdering 4 #[0, 1, 2] : Outcome ℚ Unit) =
      .error (.error (.mismatch .orderingLength 4 3)) ∧
    IsLeast {i | Offends 4 [0, 1, 1, 3] i} 2 ∧ IsLeast {i | Offends 4 [0, 1, 2, 4] i} 3 ∧
    Assembly.assemble .inOrder Assembly.twoSquares
      { Assembly.strayNodes with ordering := #[0, 1, 1, 3] } [] Options.standard =
        ⟨[], .error (.error (.invalidOrdering 2))⟩ := by
  obtain ⟨hpermutation, -⟩ := checkOrdering_decides (α := ℚ) 4 #[2, 0, 1, 3]
  obtain ⟨-, hshort, -⟩ := checkOrdering_decides (α := ℚ) 4 #[0, 1, 2]
  obtain ⟨-, -, hrepeated, hassembly⟩ := checkOrdering_decides (α := ℚ) 4 #[0, 1, 1, 3]
  obtain ⟨-, -, hlarge, -⟩ := checkOrdering_decides (α := ℚ) 4 #[0, 1, 2, 4]
  obtain ⟨i, hi, hrefused⟩ := hrepeated rfl (by decide)
  obtain ⟨j, hj, hrefused'⟩ := hlarge rfl (by decide)
  have hthird : (checkOrdering 4 #[0, 1, 1, 3] : Outcome ℚ Unit) =
      .error (.error (.invalidOrdering 2)) := by rfl
  have hfourth : (checkOrdering 4 #[0, 1, 2, 4] : Outcome ℚ Unit) =
      .error (.error (.invalidOrdering 3)) := by rfl
  cases hrefused.symm.trans hthird
  cases hrefused'.symm.trans hfourth
  refine ⟨hpermutation.mpr ⟨rfl, by decide⟩, hshort (by decide), hi, hj, ?_⟩
  exact (hassembly Assembly.twoSquares { Assembly.strayNodes with ordering := #[0, 1, 1, 3] } .two
    rfl rfl rfl (by decide) (by decide) rfl rfl).2 .inOrder [] Options.standard _ hthird

end LowOrderRefinement
