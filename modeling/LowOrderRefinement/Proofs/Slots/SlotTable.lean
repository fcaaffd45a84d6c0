import Mathlib.Data.Set.Function
import Mathlib.Order.Bounds.Basic
import LowOrderRefinement.Proofs.Errors.Faults
import LowOrderRefinement.Table

/-! When embeddings can be inverted. The sub-cells are tested one after the other, and
whether all of them pass is a matter of prefixes: the first `n` sub-cells fill slots
exactly when each of them has a place and no two of them share one. Nothing looks
for slots that stay free; when the counts agree there are none, and the embeddings
are a bijection. A table that keeps bare numbers can mark its free slots by a number
that no sub-cell has. -/

namespace LowOrderRefinement.Refinement

variable {α : Type} {r : Refinement α} {dim : Dimension} {order elements perElement n : Nat}
  {slots : Array (Option Nat)}

/-! ### Prefixes -/

/-- The first `n` sub-cells have places, and no two of them share one. -/
structure ValidUpTo (r : Refinement α) (dim : Dimension) (elements perElement n : Nat) :
    Prop where
  placed : ∀ s < n, r.Placed dim elements perElement s
  embedding_inj : ∀ s < n, ∀ t < n, r.embedding s = r.embedding t → s = t

/-- What is wrong with a sub-cell after those before it: its geometry; else its element; else its
offset in the element; else that an earlier sub-cell has its place. -/
inductive Misplaced (r : Refinement α) (dim : Dimension) (elements perElement s : Nat) :
    Error α → Prop
  | geometry (hfits : (r.geometry s).fits dim = false) :
    Misplaced r dim elements perElement s (.unsupportedGeometry s)
  | parent (hfits : (r.geometry s).fits dim = true)
      (hparent : elements ≤ (r.embedding s).parent) :
    Misplaced r dim elements perElement s (.invalidEmbedding s .parentOutOfBounds)
  | offset (hfits : (r.geometry s).fits dim = true) (hparent : (r.embedding s).parent < elements)
      (hoffset : perElement ≤ (r.embedding s).offset) :
    Misplaced r dim elements perElement s (.invalidEmbedding s .offsetOutOfBounds)
  | occupied (hplaced : r.Placed dim elements perElement s) (t : Nat) (ht : t < s)
      (hplace : r.embedding t = r.embedding s) :
    Misplaced r dim elements perElement s (.invalidEmbedding s .offsetOccupied)

theorem validUpTo_zero : r.ValidUpTo dim elements perElement 0 :=
  ⟨fun s hs => absurd hs (Nat.not_lt_zero s), fun s hs => absurd hs (Nat.not_lt_zero s)⟩

theorem ValidUpTo.mono {m : Nat} (h : r.ValidUpTo dim elements perElement n) (hm : m ≤ n) :
    r.ValidUpTo dim elements perElement m :=
  ⟨fun s hs => h.placed s (hs.trans_le hm),
    fun s hs t ht => h.embedding_inj s (hs.trans_le hm) t (ht.trans_le hm)⟩

theorem ValidUpTo.succ (h : r.ValidUpTo dim elements perElement n)
    (hplaced : r.Placed dim elements perElement n)
    (hfree : ∀ t < n, r.embedding t ≠ r.embedding n) :
    r.ValidUpTo dim elements perElement (n + 1) := by
  refine ⟨fun s hs => ?_, fun s hs t ht heq => ?_⟩
  · rcases Nat.lt_succ_iff_lt_or_eq.mp hs with hs | rfl
    · exact h.placed s hs
    · exact hplaced
  · rcases Nat.lt_succ_iff_lt_or_eq.mp hs with hs | rfl
    · rcases Nat.lt_succ_iff_lt_or_eq.mp ht with ht | rfl
      · exact h.embedding_inj s hs t ht heq
      · exact absurd heq (hfree s hs)
    · rcases Nat.lt_succ_iff_lt_or_eq.mp ht with ht | rfl
      · exact absurd heq.symm (hfree t ht)
      · rfl

theorem ValidUpTo.exists_misplaced (h : r.ValidUpTo dim elements perElement n)
    (hnot : ¬r.ValidUpTo dim elements perElement (n + 1)) :
    ∃ cause, r.Misplaced dim elements perElement n cause := by
  by_cases hfits : (r.geometry n).fits dim = true
  · rcases Nat.lt_or_ge (r.embedding n).parent elements with hparent | hparent
    · rcases Nat.lt_or_ge (r.embedding n).offset perElement with hoffset | hoffset
      · by_contra hnone
        refine hnot (h.succ ⟨hfits, hparent, hoffset⟩ fun t ht hplace => ?_)
        exact hnone ⟨_, .occupied ⟨hfits, hparent, hoffset⟩ t ht hplace⟩
      · exact ⟨_, .offset hfits hparent hoffset⟩
    · exact ⟨_, .parent hfits hparent⟩
  · exact ⟨_, .geometry (Bool.eq_false_iff.mpr hfits)⟩

/-- The least sub-cell with which the prefix is not valid comes right after a valid prefix. -/
theorem isLeast_not_validUpTo {s : Nat} :
    IsLeast {t | t < n ∧ ¬r.ValidUpTo dim elements perElement (t + 1)} s ↔
      s < n ∧ r.ValidUpTo dim elements perElement s ∧
        ¬r.ValidUpTo dim elements perElement (s + 1) := by
  constructor
  · rintro ⟨⟨hs, hnot⟩, hleast⟩
    refine ⟨hs, ?_, hnot⟩
    cases s with
    | zero => exact validUpTo_zero
    | succ s =>
      by_contra hbefore
      have : s + 1 ≤ s := hleast ⟨(Nat.lt_succ_self s).trans hs, hbefore⟩
      omega
  · rintro ⟨hs, hvalid, hnot⟩
    refine ⟨⟨hs, hnot⟩, fun t ht => ?_⟩
    by_contra hlt
    exact ht.2 (hvalid.mono (Nat.not_le.mp hlt))

/-! ### One sub-cell, then all -/

theorem Filled.validUpTo (h : r.Filled dim elements perElement n slots) :
    r.ValidUpTo dim elements perElement n :=
  ⟨h.placed, fun _ hs _ ht heq => h.eq_of_slotOf_eq hs ht (congrArg (slotOf perElement) heq)⟩

theorem Filled.getD_eq_none (h : r.Filled dim elements perElement n slots) {e : Embedding}
    (he : e.offset < perElement) (hfree : ∀ t < n, r.embedding t ≠ e) :
    slots.getD (slotOf perElement e) none = none := by
  cases hread : slots.getD (slotOf perElement e) none with
  | none => rfl
  | some t =>
    obtain ⟨ht, hslot⟩ := (h.holds _ t).mp hread
    exact absurd (slotOf_inj (h.placed t ht).offset_lt he hslot) (hfree t ht)

theorem Filled.exists_occupy (h : r.Filled dim elements perElement n slots)
    (hvalid : r.ValidUpTo dim elements perElement (n + 1)) :
    ∃ slots', r.occupy dim elements perElement slots n = .ok slots' := by
  have hplaced := hvalid.placed n (Nat.lt_succ_self n)
  refine ⟨_, occupy_eq_ok.mpr ⟨hplaced, h.getD_eq_none hplaced.offset_lt fun t ht heq => ?_, rfl⟩⟩
  have := hvalid.embedding_inj t (Nat.lt_succ_of_lt ht) n (Nat.lt_succ_self n) heq
  omega

/-- A misplaced sub-cell is refused for what is wrong with it. -/
theorem Filled.occupy_of_misplaced (h : r.Filled dim elements perElement n slots)
    {cause : Error α} (hcause : r.Misplaced dim elements perElement n cause) :
    r.occupy dim elements perElement slots n = .error (.error cause) := by
  unfold Refinement.occupy checkGeometry
  cases hcause with
  | geometry hfits =>
    rw [if_neg (Bool.eq_false_iff.mp hfits)]
    rfl
  | parent hfits hparent =>
    rw [if_pos hfits, ok_bind, if_pos hparent]
    rfl
  | offset hfits hparent hoffset =>
    rw [if_pos hfits, ok_bind, if_neg (Nat.not_le.mpr hparent), if_pos hoffset]
    rfl
  | occupied hplaced t ht hplace =>
    have htaken := (h.holds _ t).mpr ⟨ht, rfl⟩
    rw [hplace] at htaken
    rw [if_pos hplaced.fits, ok_bind, if_neg (Nat.not_le.mpr hplaced.parent_lt),
      if_neg (Nat.not_le.mpr hplaced.offset_lt)]
    dsimp only
    rw [htaken]
    rfl

/-- The sub-cells of a valid prefix find their slots. -/
theorem ValidUpTo.exists_filled (h : r.ValidUpTo dim elements perElement n) :
    ∃ slots, (List.range n).foldlM (r.occupy dim elements perElement)
      (Array.replicate (elements * perElement) none) = .ok slots := by
  induction n with
  | zero => exact ⟨_, rfl⟩
  | succ n ih =>
    obtain ⟨slots, hrun⟩ := ih (h.mono (Nat.le_succ n))
    obtain ⟨slots', hstep⟩ := (filled_range hrun).exists_occupy h
    refine ⟨slots', ?_⟩
    rw [List.range_succ, List.foldlM_append, hrun, ok_bind, List.foldlM_cons, hstep]
    rfl

/-- Filling the slots fails at the least sub-cell with which the prefix is not valid. -/
theorem fill_eq_error {failure : Failure α} :
    (List.range n).foldlM (r.occupy dim elements perElement)
        (Array.replicate (elements * perElement) none) = .error failure ↔
      ∃ s cause, IsLeast {t | t < n ∧ ¬r.ValidUpTo dim elements perElement (t + 1)} s ∧
        r.Misplaced dim elements perElement s cause ∧ failure = .error cause := by
  rw [foldlM_range_eq_error]
  constructor
  · rintro ⟨s, hs, slots, hrun, hstep⟩
    have hfilled := filled_range hrun
    have hnot : ¬r.ValidUpTo dim elements perElement (s + 1) := by
      intro hvalid
      obtain ⟨slots', hok⟩ := hfilled.exists_occupy hvalid
      cases hok.symm.trans hstep
    obtain ⟨cause, hcause⟩ := hfilled.validUpTo.exists_misplaced hnot
    obtain rfl := Except.error.inj (hstep.symm.trans (hfilled.occupy_of_misplaced hcause))
    exact ⟨s, cause, isLeast_not_validUpTo.mpr ⟨hs, hfilled.validUpTo, hnot⟩, hcause, rfl⟩
  · rintro ⟨s, cause, hleast, hcause, rfl⟩
    obtain ⟨hs, hvalid, -⟩ := isLeast_not_validUpTo.mp hleast
    obtain ⟨slots, hrun⟩ := hvalid.exists_filled
    exact ⟨s, hs, slots, hrun, (filled_range hrun).occupy_of_misplaced hcause⟩

/-! ### The table -/

/-- Sub-cells of the right geometry cover all places exactly when the embeddings are a bijection. -/
theorem covers_iff :
    r.Covers dim elements perElement ↔ (∀ s < r.subcells, (r.geometry s).fits dim = true) ∧
      Set.BijOn r.embedding (Set.Iio r.subcells)
        {e | e.parent < elements ∧ e.offset < perElement} := by
  constructor
  · intro h
    refine ⟨fun s hs => (h.placed s hs).fits, fun s hs => ?_, fun s hs t ht => ?_, fun e he => ?_⟩
    · exact ⟨(h.placed s hs).parent_lt, (h.placed s hs).offset_lt⟩
    · exact h.embedding_inj s hs t ht
    · exact h.exists_embedding e.parent he.1 e.offset he.2
  · rintro ⟨hfits, hmaps, hinj, hsurj⟩
    refine ⟨fun s hs => ⟨hfits s hs, (hmaps hs).1, (hmaps hs).2⟩,
      fun s hs t ht => hinj hs ht, fun parent hparent offset hoffset => ?_⟩
    exact hsurj (show (⟨parent, offset⟩ : Embedding) ∈
      {e : Embedding | e.parent < elements ∧ e.offset < perElement} from ⟨hparent, hoffset⟩)

theorem Covers.validUpTo (h : r.Covers dim elements perElement) :
    r.ValidUpTo dim elements perElement r.subcells :=
  ⟨h.placed, h.embedding_inj⟩

/-- A table of all sub-cells, each in its own slot, lists every sub-cell once. -/
theorem Slotted.toList_perm {table : Array Nat} (h : r.Slotted dim elements perElement table) :
    table.toList.Perm (List.range r.subcells) := by
  have hsubset : List.range r.subcells ⊆ table.toList := by
    intro s hs
    exact Array.mem_toList_iff.mpr
      (Array.mem_of_getElem? (h.getElem_slotOf s (List.mem_range.mp hs)))
  have hlength : table.toList.length ≤ (List.range r.subcells).length := by
    rw [Array.length_toList, h.size_table, List.length_range, h.subcells_eq]
  exact ((List.subperm_of_subset List.nodup_range hsubset).perm_of_length_le hlength).symm

section Sizes

variable (hper : order ^ dim.value < Size.limit) (htotal : elements * order ^ dim.value < Size.limit)

include hper htotal

theorem slots_of_mismatch (h : r.subcells ≠ elements * order ^ dim.value) :
    r.slots dim order elements =
      .error (.error (.mismatch .subcells (elements * order ^ dim.value) r.subcells)) := by
  rw [slots_eq r hper htotal, Outcome.agree, if_neg (Ne.symm h)]
  rfl

theorem slots_of_match (h : r.subcells = elements * order ^ dim.value) :
    r.slots dim order elements = ((List.range r.subcells).foldlM
      (r.occupy dim elements (order ^ dim.value))
      (Array.replicate (elements * order ^ dim.value) none)).map (Array.map (·.getD 0)) := by
  have hagree : (Outcome.agree .subcells (elements * order ^ dim.value) r.subcells :
      Outcome α Unit) = .ok () := agree_eq_ok.mpr h.symm
  rw [slots_eq r hper htotal, hagree, ok_bind]
  cases hrun : (List.range r.subcells).foldlM (r.occupy dim elements (order ^ dim.value))
      (Array.replicate (elements * order ^ dim.value) none) with
  | error failure => rfl
  | ok filled =>
    have hfilled := filled_range hrun
    rw [h] at hfilled
    have hall : require (filled.all Option.isSome) .outOfRange = .ok () :=
      require_eq_ok.mpr hfilled.all_isSome
    rw [ok_bind, hall]
    rfl

theorem exists_slots_iff : (∃ table, r.slots dim order elements = .ok table) ↔
    r.Covers dim elements (order ^ dim.value) := by
  constructor
  · rintro ⟨table, htable⟩
    exact (slots_spec htable).covers
  · intro h
    obtain ⟨filled, hrun⟩ := h.validUpTo.exists_filled
    exact ⟨_, by rw [slots_of_match hper htotal h.subcells_eq, hrun]; rfl⟩

end Sizes

/-- Sub-cells that fill the elements have slots whenever their metric terms can be stored. -/
theorem Covers.exists_slots (h : r.Covers dim elements (order ^ dim.value)) {options : Options α}
    (hstorable : r.TermsStorable dim order elements options) :
    ∃ table, r.slots dim order elements = .ok table := by
  obtain ⟨n, hn⟩ := hstorable.terms
  have hfits := MetricArray.fits_of_storage hn
  have hpos : 0 < dim.components * dim.vertices := by cases dim <;> decide
  have hper := Size.prod_lt_of_fits
    (Size.productFits_left [dim.components, dim.vertices, order ^ dim.value] [elements] hfits)
  have htotal := Size.prod_lt_of_fits hfits
  rw [List.prod_cons, List.prod_cons, List.prod_singleton, ← Nat.mul_assoc] at hper
  rw [dim.prod_terms] at htotal
  exact (exists_slots_iff (Nat.lt_of_le_of_lt (Nat.le_mul_of_pos_left _ hpos) hper)
    (Nat.lt_of_le_of_lt (Nat.le_mul_of_pos_left _ hpos) htotal)).mpr h

/-! ### Marked slots -/

/-- The number that marks a free slot: the largest size. -/
def freeMark : Nat := Size.limit - 1

def marked (slots : Array (Option Nat)) : Array Nat := slots.map (·.getD freeMark)

def occupyMarked (r : Refinement α) (dim : Dimension) (elements perElement : Nat)
    (slots : Array Nat) (subcell : Nat) : Outcome α (Array Nat) := do
  r.checkGeometry dim subcell
  let e := r.embedding subcell
  if elements ≤ e.parent then .refuse (.invalidEmbedding subcell .parentOutOfBounds)
  else if perElement ≤ e.offset then .refuse (.invalidEmbedding subcell .offsetOutOfBounds)
  else
    let slot := slotOf perElement e
    if slots.getD slot freeMark ≠ freeMark then
      .refuse (.invalidEmbedding subcell .offsetOccupied)
    else return slots.setIfInBounds slot subcell

/-- The sub-cell of every slot, found in a table of bare numbers. -/
def markedSlots (r : Refinement α) (dim : Dimension) (order elements : Nat) :
    Outcome α (Array Nat) := do
  let perElement ← dim.subcells order
  let total ← Size.mul elements perElement
  .agree .subcells total r.subcells
  let filled ← (List.range r.subcells).foldlM (r.occupyMarked dim elements perElement)
    (Array.replicate total freeMark)
  require (filled.all (· ≠ freeMark)) .outOfRange
  return filled

theorem marked_replicate (size : Nat) :
    marked (Array.replicate size none) = Array.replicate size freeMark :=
  Array.map_replicate

theorem marked_setIfInBounds (slots : Array (Option Nat)) (i s : Nat) :
    marked (slots.setIfInBounds i (some s)) = (marked slots).setIfInBounds i s :=
  Array.map_setIfInBounds

theorem getD_marked (slots : Array (Option Nat)) (i : Nat) :
    (marked slots).getD i freeMark = (slots.getD i none).getD freeMark := by
  rw [marked, Array.getD_eq_getD_getElem?, Array.getD_eq_getD_getElem?, Array.getElem?_map]
  cases slots[i]? <;> rfl

/-- No sub-cell has the number that marks a free slot. -/
theorem Filled.ne_freeMark (h : r.Filled dim elements perElement n slots) (hn : n ≤ freeMark)
    {i s : Nat} (hs : slots.getD i none = some s) : s ≠ freeMark :=
  Nat.ne_of_lt (((h.holds i s).mp hs).1.trans_le hn)

/-- A sub-cell takes its slot in the table of bare numbers as it does in the slots. -/
theorem Filled.occupyMarked_eq (h : r.Filled dim elements perElement n slots)
    (hn : n ≤ freeMark) (s : Nat) :
    r.occupyMarked dim elements perElement (marked slots) s =
      (r.occupy dim elements perElement slots s).map marked := by
  unfold Refinement.occupyMarked Refinement.occupy
  cases r.checkGeometry dim s with
  | error failure => rfl
  | ok u =>
    rw [ok_bind, ok_bind]
    dsimp only
    split
    · rfl
    · split
      · rfl
      · rw [getD_marked]
        cases hread : slots.getD (slotOf perElement (r.embedding s)) none with
        | none =>
          rw [Option.getD_none, if_neg (fun hne => hne rfl), ← marked_setIfInBounds]
          rfl
        | some t =>
          rw [Option.getD_some, if_pos (h.ne_freeMark hn hread)]
          rfl

theorem fillMarked_eq (r : Refinement α) (dim : Dimension) (elements perElement : Nat)
    (hn : n ≤ freeMark) :
    (List.range n).foldlM (r.occupyMarked dim elements perElement)
        (Array.replicate (elements * perElement) freeMark) =
      ((List.range n).foldlM (r.occupy dim elements perElement)
        (Array.replicate (elements * perElement) none)).map marked := by
  induction n with
  | zero =>
    rw [← marked_replicate]
    rfl
  | succ n ih =>
    rw [List.range_succ, List.foldlM_append, List.foldlM_append, ih (Nat.le_of_succ_le hn)]
    cases hrun : (List.range n).foldlM (r.occupy dim elements perElement)
        (Array.replicate (elements * perElement) none) with
    | error failure => rfl
    | ok slots =>
      show (do r.occupyMarked dim elements perElement (marked slots) n) >>= pure =
        ((do r.occupy dim elements perElement slots n) >>= pure).map marked
      rw [bind_pure, bind_pure, (filled_range hrun).occupyMarked_eq (Nat.le_of_succ_le hn)]

theorem Filled.exists_getElem (h : r.Filled dim elements perElement (elements * perElement) slots)
    {i : Nat} (hi : i < slots.size) : ∃ s < elements * perElement, slots[i] = some s := by
  obtain ⟨s, hs⟩ := Option.isSome_iff_exists.mp (Array.all_eq_true.mp h.all_isSome i hi)
  have hread : slots.getD i none = some s := by
    rw [Array.getD_eq_getD_getElem?, Array.getElem?_eq_getElem hi, hs]
    rfl
  exact ⟨s, ((h.holds i s).mp hread).1, hs⟩

theorem Filled.all_marked (h : r.Filled dim elements perElement (elements * perElement) slots)
    (hle : elements * perElement ≤ freeMark) : (marked slots).all (· ≠ freeMark) = true := by
  rw [Array.all_eq_true]
  intro i hi
  rw [marked, Array.size_map] at hi
  obtain ⟨s, hs, hget⟩ := h.exists_getElem hi
  simp only [marked, Array.getElem_map, hget, Option.getD_some, decide_eq_true_eq]
  omega

theorem Filled.marked_eq (h : r.Filled dim elements perElement (elements * perElement) slots) :
    marked slots = slots.map (·.getD 0) := by
  refine Array.map_congr_left fun entry hentry => ?_
  obtain ⟨i, hi, rfl⟩ := Array.mem_iff_getElem.mp hentry
  obtain ⟨s, -, hget⟩ := h.exists_getElem hi
  rw [hget, Option.getD_some, Option.getD_some]

/-- Marking free slots by a number leaves the result as it is. -/
theorem markedSlots_eq (r : Refinement α) (dim : Dimension) (order elements : Nat) :
    r.markedSlots dim order elements = r.slots dim order elements := by
  refine bind_congr_of_ok fun perElement _ => bind_congr_of_ok fun total htotal =>
    bind_congr_of_ok fun _ hagree => ?_
  obtain ⟨hlt, rfl⟩ := Size.mul_eq_ok.mp (lift_eq_ok.mp htotal)
  have hle : elements * perElement ≤ freeMark := Nat.le_pred_of_lt hlt
  rw [← agree_eq_ok.mp hagree, fillMarked_eq r dim elements perElement hle]
  cases hrun : (List.range (elements * perElement)).foldlM (r.occupy dim elements perElement)
      (Array.replicate (elements * perElement) none) with
  | error failure => rfl
  | ok filled =>
    have hfilled := filled_range hrun
    show (do
        liftM (require ((marked filled).all (· ≠ freeMark)) .outOfRange)
        pure (marked filled) : Outcome α (Array Nat)) =
      (do
        liftM (require (filled.all Option.isSome) .outOfRange)
        pure (filled.map (·.getD 0)))
    rw [hfilled.all_marked hle, hfilled.all_isSome, hfilled.marked_eq]

/-! ### The outcome -/

/-- Embeddings are inverted when the places of one element and those of all elements can be counted
by sizes. There is a table exactly when there are as many sub-cells as places, all sub-cells have
the right geometry, and the embedding is a bijection onto the places. The table then has one entry
for every sub-cell, lists each of them once, and holds every sub-cell at its slot. A wrong count is
reported as such. With the right count, what is reported is the first test that fails for the least
sub-cell with which the sub-cells so far are not valid any more. A slot never stays free without a
report, and it does not matter that free slots are marked by a number. -/
theorem slots_inverts (r : Refinement α) (dim : Dimension) (order elements : Nat)
    (hper : order ^ dim.value < Size.limit)
    (htotal : elements * order ^ dim.value < Size.limit) :
    let perElement := order ^ dim.value
    let result := r.slots dim order elements
    ((∃ table, result = .ok table) ↔ r.subcells = elements * perElement ∧
      (∀ s < r.subcells, (r.geometry s).fits dim = true) ∧
      Set.BijOn r.embedding (Set.Iio r.subcells)
        {e | e.parent < elements ∧ e.offset < perElement}) ∧
    (∀ table, result = .ok table → table.size = r.subcells ∧
      table.toList.Perm (List.range r.subcells) ∧
      ∀ s < r.subcells,
        table[(r.embedding s).offset + perElement * (r.embedding s).parent]? = some s) ∧
    (r.subcells ≠ elements * perElement →
      result = .error (.error (.mismatch .subcells (elements * perElement) r.subcells))) ∧
    (r.subcells = elements * perElement → ∀ failure, result = .error failure ↔
      ∃ s cause, IsLeast {t | t < r.subcells ∧ ¬r.ValidUpTo dim elements perElement (t + 1)} s ∧
        r.Misplaced dim elements perElement s cause ∧ failure = .error cause) ∧
    result.Faultless ∧ r.markedSlots dim order elements = result := by
  intro perElement result
  refine ⟨?_, fun table htable => ?_, slots_of_mismatch hper htotal, fun hcount failure => ?_,
    faultless_slots hper htotal, r.markedSlots_eq dim order elements⟩
  · constructor
    · intro h
      have hcovers := (exists_slots_iff hper htotal).mp h
      exact ⟨hcovers.subcells_eq, covers_iff.mp hcovers⟩
    · rintro ⟨-, h⟩
      exact (exists_slots_iff hper htotal).mpr (covers_iff.mpr h)
  · have hslotted := slots_spec htable
    exact ⟨hslotted.size_table.trans hslotted.subcells_eq.symm, hslotted.toList_perm,
      hslotted.getElem_slotOf⟩
  · rw [show result = _ from slots_of_match hper htotal hcount, map_eq_error]
    exact fill_eq_error

/-- The four sub-cells of a square, in disorder. -/
def quarters : Refinement ℚ :=
  .ofTable 2 #[⟨.quadrilateral, ⟨0, 2⟩, [0, 1, 1, 1, 1, 2, 0, 2]⟩,
    ⟨.quadrilateral, ⟨0, 0⟩, [0, 0, 1, 0, 1, 1, 0, 1]⟩,
    ⟨.quadrilateral, ⟨0, 3⟩, [1, 1, 2, 1, 2, 2, 1, 2]⟩,
    ⟨.quadrilateral, ⟨0, 1⟩, [1, 0, 2, 0, 2, 1, 1, 1]⟩] none

/-- The same sub-cells, the third of which claims the place of the second, and the fourth of which
has an element that does not exist. -/
def confusedQuarters : Refinement ℚ :=
  .ofTable 2 #[⟨.quadrilateral, ⟨0, 2⟩, [0, 1, 1, 1, 1, 2, 0, 2]⟩,
    ⟨.quadrilateral, ⟨0, 0⟩, [0, 0, 1, 0, 1, 1, 0, 1]⟩,
    ⟨.quadrilateral, ⟨0, 0⟩, [1, 1, 2, 1, 2, 2, 1, 2]⟩,
    ⟨.quadrilateral, ⟨1, 1⟩, [1, 0, 2, 0, 2, 1, 1, 1]⟩] none

/-- The embedding of the quarters is a bijection; of the confused quarters the third is reported. -/
theorem slots_inverts_quarters :
    2 ^ Dimension.two.value < Size.limit ∧ 1 * 2 ^ Dimension.two.value < Size.limit ∧
    quarters.slots .two 2 1 = .ok #[1, 3, 0, 2] ∧
    Set.BijOn quarters.embedding (Set.Iio 4) {e | e.parent < 1 ∧ e.offset < 4} ∧
    confusedQuarters.slots .two 2 1 =
      .error (.error (.invalidEmbedding 2 .offsetOccupied)) ∧
    IsLeast {t | t < 4 ∧ ¬confusedQuarters.ValidUpTo .two 1 4 (t + 1)} 2 := by
  have hper : 2 ^ Dimension.two.value < Size.limit := by decide
  have htotal : 1 * 2 ^ Dimension.two.value < Size.limit := by decide
  have htable : quarters.slots .two 2 1 = .ok #[1, 3, 0, 2] := by decide +kernel
  have hrefused : confusedQuarters.slots .two 2 1 =
      .error (.error (.invalidEmbedding 2 .offsetOccupied)) := by rfl
  obtain ⟨hexists, -⟩ := slots_inverts quarters .two 2 1 hper htotal
  obtain ⟨-, -, hbij⟩ := hexists.mp ⟨_, htable⟩
  obtain ⟨-, -, -, hfirst, -⟩ := slots_inverts confusedQuarters .two 2 1 hper htotal
  obtain ⟨s, cause, hleast, hcause, heq⟩ := (hfirst rfl _).mp hrefused
  cases heq
  cases hcause
  exact ⟨hper, htotal, htable, hbij, hrefused, hleast⟩

end LowOrderRefinement.Refinement
