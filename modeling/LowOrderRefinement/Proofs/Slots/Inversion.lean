import Mathlib.Data.List.Nodup
import Mathlib.Data.List.Perm.Subperm
import LowOrderRefinement.Slots
import LowOrderRefinement.Proofs.Execution.Traversal

/-! Inversion of embeddings. Sub-cells are put into their slots one after the other;
after `n` of them the slots hold exactly the first `n` sub-cells, each in the slot
of its place. When all sub-cells are placed and every slot is taken, sub-cells and
slots correspond one to one. -/

namespace LowOrderRefinement.Refinement

variable {α : Type}

theorem slotOf_eq (perElement : Nat) (e : Embedding) :
    slotOf perElement e = e.parent * perElement + e.offset := by
  rw [slotOf, Nat.add_comm, Nat.mul_comm]

theorem slotOf_div {perElement : Nat} {e : Embedding} (he : e.offset < perElement) :
    slotOf perElement e / perElement = e.parent := by
  rw [slotOf_eq, Lattice.place_div he]

theorem slotOf_inj {perElement : Nat} {e f : Embedding} (he : e.offset < perElement)
    (hf : f.offset < perElement) (h : slotOf perElement e = slotOf perElement f) : e = f := by
  rw [slotOf_eq, slotOf_eq] at h
  obtain ⟨hparent, hoffset⟩ := Lattice.place_inj he hf h
  cases e
  cases f
  simp_all

theorem slotOf_lt {perElement elements : Nat} {e : Embedding} (hoffset : e.offset < perElement)
    (hparent : e.parent < elements) : slotOf perElement e < elements * perElement := by
  rw [slotOf_eq]
  exact Lattice.place_lt hparent hoffset

/-- A sub-cell has the geometry of the dimension and a place in an element that exists. -/
structure Placed (r : Refinement α) (dim : Dimension) (elements perElement subcell : Nat) :
    Prop where
  fits : (r.geometry subcell).fits dim = true
  parent_lt : (r.embedding subcell).parent < elements
  offset_lt : (r.embedding subcell).offset < perElement

/-- The slots hold exactly the first `n` sub-cells. -/
structure Filled (r : Refinement α) (dim : Dimension) (elements perElement n : Nat)
    (slots : Array (Option Nat)) : Prop where
  size_slots : slots.size = elements * perElement
  placed : ∀ s < n, r.Placed dim elements perElement s
  holds : ∀ i s, slots.getD i none = some s ↔ s < n ∧ slotOf perElement (r.embedding s) = i

@[simp] theorem checkGeometry_eq_ok {r : Refinement α} {dim : Dimension} {subcell : Nat}
    {u : Unit} : r.checkGeometry dim subcell = .ok u ↔ (r.geometry subcell).fits dim = true := by
  unfold checkGeometry
  split <;> simp [*, Outcome.refuse]

/-- A sub-cell is accepted when it has a place and the slot of this place is free. -/
theorem occupy_eq_ok {r : Refinement α} {dim : Dimension} {elements perElement subcell : Nat}
    {slots slots' : Array (Option Nat)} :
    r.occupy dim elements perElement slots subcell = .ok slots' ↔
      r.Placed dim elements perElement subcell ∧
      slots.getD (slotOf perElement (r.embedding subcell)) none = none ∧
      slots.setIfInBounds (slotOf perElement (r.embedding subcell)) (some subcell) = slots' := by
  unfold occupy
  simp only [bind_eq_ok, checkGeometry_eq_ok, exists_const]
  constructor
  · rintro ⟨hfits, h⟩
    split at h
    · cases h
    · split at h
      · cases h
      · split at h
        next hfree => exact ⟨⟨hfits, by omega, by omega⟩, hfree, pure_eq_ok.mp h⟩
        next => cases h
  · rintro ⟨⟨hfits, hparent, hoffset⟩, hfree, rfl⟩
    rw [if_neg (by omega), if_neg (by omega), hfree]
    exact ⟨hfits, rfl⟩

theorem filled_zero (r : Refinement α) (dim : Dimension) (elements perElement : Nat) :
    r.Filled dim elements perElement 0 (Array.replicate (elements * perElement) none) where
  size_slots := Array.size_replicate
  placed s hs := absurd hs (Nat.not_lt_zero s)
  holds i s := by
    rw [Array.getD_eq_getD_getElem?, Array.getElem?_replicate]
    split <;> simp

/-- One more sub-cell takes its slot and leaves the others as they are. -/
theorem Filled.occupy {r : Refinement α} {dim : Dimension} {elements perElement n : Nat}
    {slots slots' : Array (Option Nat)} (h : r.Filled dim elements perElement n slots)
    (hstep : r.occupy dim elements perElement slots n = .ok slots') :
    r.Filled dim elements perElement (n + 1) slots' := by
  obtain ⟨hplaced, hfree, rfl⟩ := occupy_eq_ok.mp hstep
  have hlt := slotOf_lt hplaced.offset_lt hplaced.parent_lt
  refine ⟨by simp [h.size_slots], fun s hs => ?_, fun i s => ?_⟩
  · rcases Nat.lt_succ_iff_lt_or_eq.mp hs with hs | rfl
    · exact h.placed s hs
    · exact hplaced
  · have hold := h.holds i s
    rw [Array.getD_eq_getD_getElem?] at hold hfree ⊢
    rw [Array.getElem?_setIfInBounds]
    split
    next hi =>
      subst hi
      rw [if_pos (h.size_slots ▸ hlt)]
      rw [hfree] at hold
      simp only [Option.getD_some, Option.some.injEq]
      constructor
      · rintro rfl
        exact ⟨Nat.lt_succ_self _, rfl⟩
      · rintro ⟨hs, hslot⟩
        rcases Nat.lt_succ_iff_lt_or_eq.mp hs with hs | rfl
        · exact absurd (hold.mpr ⟨hs, hslot⟩) (by simp)
        · rfl
    next hi =>
      rw [hold]
      constructor
      · rintro ⟨hs, hslot⟩
        exact ⟨Nat.lt_succ_of_lt hs, hslot⟩
      · rintro ⟨hs, hslot⟩
        rcases Nat.lt_succ_iff_lt_or_eq.mp hs with hs | rfl
        · exact ⟨hs, hslot⟩
        · exact absurd hslot hi

theorem filled_range {r : Refinement α} {dim : Dimension} {elements perElement n : Nat}
    {slots : Array (Option Nat)}
    (h : (List.range n).foldlM (r.occupy dim elements perElement)
      (Array.replicate (elements * perElement) none) = .ok slots) :
    r.Filled dim elements perElement n slots := by
  induction n generalizing slots with
  | zero =>
    obtain rfl := pure_eq_ok.mp h
    exact r.filled_zero dim elements perElement
  | succ n ih =>
    rw [List.range_succ, List.foldlM_append] at h
    obtain ⟨before, hbefore, hstep⟩ := bind_eq_ok.mp h
    simp only [List.foldlM_cons, List.foldlM_nil, bind_pure] at hstep
    exact (ih hbefore).occupy hstep

theorem Filled.eq_of_slotOf_eq {r : Refinement α} {dim : Dimension} {elements perElement n : Nat}
    {slots : Array (Option Nat)} (h : r.Filled dim elements perElement n slots) {s t : Nat}
    (hs : s < n) (ht : t < n)
    (heq : slotOf perElement (r.embedding s) = slotOf perElement (r.embedding t)) : s = t := by
  have hread := (h.holds _ s).mpr ⟨hs, rfl⟩
  rw [heq, (h.holds _ t).mpr ⟨ht, rfl⟩] at hread
  exact (Option.some.inj hread).symm

/-- A table of the sub-cells of all slots, in which every sub-cell stands in its own slot. -/
structure Slotted (r : Refinement α) (dim : Dimension) (elements perElement : Nat)
    (table : Array Nat) : Prop where
  size_table : table.size = elements * perElement
  subcells_eq : r.subcells = elements * perElement
  placed : ∀ s < r.subcells, r.Placed dim elements perElement s
  getElem_slotOf : ∀ s < r.subcells, table[slotOf perElement (r.embedding s)]? = some s
  exists_getElem : ∀ i < table.size, ∃ s < r.subcells, table[i]? = some s ∧
    slotOf perElement (r.embedding s) = i

/-- Every place of every element is taken by exactly one sub-cell. -/
structure Covers (r : Refinement α) (dim : Dimension) (elements perElement : Nat) : Prop where
  placed : ∀ s < r.subcells, r.Placed dim elements perElement s
  embedding_inj : ∀ s < r.subcells, ∀ t < r.subcells, r.embedding s = r.embedding t → s = t
  exists_embedding : ∀ parent < elements, ∀ offset < perElement,
    ∃ s < r.subcells, r.embedding s = ⟨parent, offset⟩

theorem Slotted.covers {r : Refinement α} {dim : Dimension} {elements perElement : Nat}
    {table : Array Nat} (h : r.Slotted dim elements perElement table) :
    r.Covers dim elements perElement := by
  refine ⟨h.placed, fun s hs t ht heq => ?_, fun parent hparent offset hoffset => ?_⟩
  · have := (h.getElem_slotOf s hs).symm.trans (heq ▸ h.getElem_slotOf t ht)
    exact Option.some.inj this
  · have hlt : slotOf perElement ⟨parent, offset⟩ < table.size :=
      h.size_table ▸ slotOf_lt hoffset hparent
    obtain ⟨s, hs, -, hslot⟩ := h.exists_getElem _ hlt
    exact ⟨s, hs, slotOf_inj (h.placed s hs).offset_lt hoffset hslot⟩

/-- There are as many sub-cells as places. -/
theorem Covers.subcells_eq {r : Refinement α} {dim : Dimension} {elements perElement : Nat}
    (h : r.Covers dim elements perElement) : r.subcells = elements * perElement := by
  have hinj : ∀ s ∈ List.range r.subcells, ∀ t ∈ List.range r.subcells,
      slotOf perElement (r.embedding s) = slotOf perElement (r.embedding t) → s = t := by
    intro s hs t ht heq
    rw [List.mem_range] at hs ht
    exact h.embedding_inj s hs t ht
      (slotOf_inj (h.placed s hs).offset_lt (h.placed t ht).offset_lt heq)
  have hperm : ((List.range r.subcells).map fun s => slotOf perElement (r.embedding s)).Perm
      (List.range (elements * perElement)) := by
    rw [List.perm_ext_iff_of_nodup (List.Nodup.map_on hinj List.nodup_range) List.nodup_range]
    intro slot
    simp only [List.mem_map, List.mem_range]
    constructor
    · rintro ⟨s, hs, rfl⟩
      exact slotOf_lt (h.placed s hs).offset_lt (h.placed s hs).parent_lt
    · intro hslot
      have hper : 0 < perElement := Nat.pos_of_mul_pos_left (Nat.zero_lt_of_lt hslot)
      have hparent : slot / perElement < elements :=
        (Nat.div_lt_iff_lt_mul hper).mpr hslot
      obtain ⟨s, hs, heq⟩ := h.exists_embedding _ hparent _ (Nat.mod_lt slot hper)
      exact ⟨s, hs, by rw [heq, slotOf, Nat.mod_add_div]⟩
  simpa using hperm.length_eq

/-- When the number of slots is a size, the count of the sub-cells and the sub-cells themselves are
what is left to check. -/
theorem slots_eq (r : Refinement α) {dim : Dimension} {order elements : Nat}
    (hper : order ^ dim.value < Size.limit) (htotal : elements * order ^ dim.value < Size.limit) :
    r.slots dim order elements = (do
      Outcome.agree .subcells (elements * order ^ dim.value) r.subcells
      let filled ← (List.range r.subcells).foldlM (r.occupy dim elements (order ^ dim.value))
        (Array.replicate (elements * order ^ dim.value) none)
      require (filled.all Option.isSome) .outOfRange
      return filled.map (·.getD 0)) := by
  rw [slots, Dimension.subcells, Size.pow_eq_ok.mpr ⟨hper, rfl⟩, lift_ok, ok_bind,
    Size.mul_eq_ok.mpr ⟨htotal, rfl⟩, lift_ok, ok_bind]

theorem slots_spec {r : Refinement α} {dim : Dimension} {order elements : Nat}
    {table : Array Nat} (h : r.slots dim order elements = .ok table) :
    r.Slotted dim elements (order ^ dim.value) table := by
  simp only [slots, bind_eq_ok, lift_eq_ok, Dimension.subcells, Size.pow_eq_ok, Size.mul_eq_ok,
    agree_eq_ok, require_eq_ok, pure_eq_ok] at h
  obtain ⟨_, ⟨-, rfl⟩, _, ⟨-, rfl⟩, -, hsubcells, filled, hfilled, -, hsome, rfl⟩ := h
  have hfill := filled_range hfilled
  have hread (i : Nat) : (filled.map (·.getD 0))[i]? = filled[i]?.map (·.getD 0) :=
    Array.getElem?_map
  refine ⟨by simp [hfill.size_slots], hsubcells.symm, hfill.placed, fun s hs => ?_,
    fun i hi => ?_⟩
  · have hslot := (hfill.holds _ s).mpr ⟨hs, rfl⟩
    rw [Array.getD_eq_getD_getElem?] at hslot
    rw [hread]
    cases hget : filled[slotOf (order ^ dim.value) (r.embedding s)]? with
    | none => simp [hget] at hslot
    | some o => simp_all
  · rw [Array.size_map] at hi
    have hget : filled[i]? = some filled[i] := Array.getElem?_eq_getElem hi
    obtain ⟨s, hs⟩ := Option.isSome_iff_exists.mp
      (Array.all_eq_true.mp hsome i hi)
    obtain ⟨hlt, hslot⟩ := (hfill.holds i s).mp (by simp [Array.getD_eq_getD_getElem?, hget, hs])
    exact ⟨s, hlt, by rw [hread, hget, hs]; rfl, hslot⟩

end LowOrderRefinement.Refinement
