import Mathlib.Data.List.TakeWhile
import LowOrderRefinement.Proofs.Assembly.Elements

/-! Adding the contributions of elements to a builder. As long as all contributions lie
inside of the matrix, adding them element by element fails only where an element
fails, and ends with all contributions in the order of the elements. Batches of
elements that are computed concurrently lead to the same builder; when elements
fail, one of the first batch with a failing element is reported. -/

namespace LowOrderRefinement

variable {α : Type}

namespace Builder

theorem admits_empty (nrows ncols : Nat) (t : Triplet α) :
    (empty nrows ncols).admits t = (t.row < nrows && t.col < ncols) := rfl

theorem ext_entries {b c : Builder α} (hrows : b.nrows = c.nrows) (hcols : b.ncols = c.ncols)
    (hentries : b.entries = c.entries) : b = c := by
  cases b
  cases c
  simp_all

theorem entries_accept {b : Builder α} {ts : List (Triplet α)} (h : ∀ t ∈ ts, b.admits t = true) :
    (b.accept ts).entries = b.entries ++ ts.toArray := by
  simp only [accept, List.takeWhile_eq_self_iff.mpr h]

theorem accept_nil (b : Builder α) : b.accept [] = b :=
  ext_entries rfl rfl (by simp [accept])

theorem accept_append {b : Builder α} {ts us : List (Triplet α)}
    (hts : ∀ t ∈ ts, b.admits t = true) (hus : ∀ t ∈ us, b.admits t = true) :
    (b.accept ts).accept us = b.accept (ts ++ us) := by
  refine ext_entries rfl rfl ?_
  have happend : ∀ t ∈ ts ++ us, b.admits t = true := by
    intro t ht
    rcases List.mem_append.mp ht with ht | ht
    · exact hts t ht
    · exact hus t ht
  rw [entries_accept (b := b.accept ts) hus, entries_accept hts, entries_accept happend]
  simp

theorem pushAll_eq {b : Builder α} {ts : List (Triplet α)} (h : ∀ t ∈ ts, b.admits t = true) :
    b.pushAll ts = .ok (b.accept ts) := by
  rw [pushAll, admitsAll, require, if_pos (List.all_eq_true.mpr h)]
  rfl

end Builder

namespace Assembly

/-! ### Element by element -/

variable {task : Nat → Outcome α (List (Triplet α))} {b : Builder α}

/-- Whatever the listed elements contribute lies inside of the matrix. -/
def Inside (b : Builder α) (task : Nat → Outcome α (List (Triplet α))) (elements : List Nat) :
    Prop :=
  ∀ e ∈ elements, ∀ ts, task e = .ok ts → ∀ t ∈ ts, b.admits t = true

theorem Inside.of_mapM {elements : List Nat} (h : Inside b task elements)
    {tss : List (List (Triplet α))} (htss : elements.mapM task = .ok tss) :
    ∀ t ∈ tss.flatten, b.admits t = true := by
  intro t ht
  obtain ⟨ts, hts, ht⟩ := List.mem_flatten.mp ht
  obtain ⟨e, he, htask⟩ := exists_of_mem_of_mapM_eq_ok htss hts
  exact h e he ts htask t ht

theorem foldlM_push {elements : List Nat} (h : Inside b task elements) :
    elements.foldlM (fun b e => do b.pushAll (← task e)) b =
      (elements.mapM task).map fun tss => b.accept tss.flatten := by
  induction elements generalizing b with
  | nil => exact congrArg Except.ok b.accept_nil.symm
  | cons e elements ih =>
    rw [List.foldlM_cons, List.mapM_cons]
    cases htask : task e with
    | error c => rfl
    | ok ts =>
      have hts : ∀ t ∈ ts, b.admits t = true := h e List.mem_cons_self ts htask
      have hrest : Inside b task elements := fun e' he' => h e' (List.mem_cons_of_mem e he')
      rw [ok_bind, ok_bind, Builder.pushAll_eq hts, lift_ok, ok_bind, ih (b := b.accept ts) hrest]
      cases htss : elements.mapM task with
      | error c => rfl
      | ok tss => exact congrArg Except.ok (Builder.accept_append hts (hrest.of_mapM htss))

theorem foldlM_pushAll {tss : List (List (Triplet α))}
    (h : ∀ t ∈ tss.flatten, b.admits t = true) :
    tss.foldlM (fun b ts => (b.pushAll ts : Outcome α (Builder α))) b =
      .ok (b.accept tss.flatten) := by
  induction tss generalizing b with
  | nil => exact congrArg Except.ok b.accept_nil.symm
  | cons ts tss ih =>
    have hts : ∀ t ∈ ts, b.admits t = true := fun t ht => h t (by simp [ht])
    have hrest : ∀ t ∈ tss.flatten, b.admits t = true := fun t ht =>
      h t (List.mem_append_right ts ht)
    rw [List.foldlM_cons, Builder.pushAll_eq hts, lift_ok, ok_bind, ih (b := b.accept ts) hrest,
      Builder.accept_append hts hrest]
    rfl

/-! ### Batch by batch -/

section Batches

variable (schedule : Schedule)

def pushBatch (task : Nat → Outcome α (List (Triplet α))) (b : Builder α) (batch : List Nat) :
    Outcome α (Builder α) := do
  let done ← schedule.firstFailure task batch
  done.foldlM (fun b ts => b.pushAll ts) b

/-- A batch whose elements all succeed adds the contributions of its elements in order. -/
theorem pushBatch_of_ok {batch : List Nat} (ordered : batch.Pairwise (· < ·))
    (h : Inside b task batch) {tss : List (List (Triplet α))} (htss : batch.mapM task = .ok tss) :
    pushBatch schedule task b batch = .ok (b.accept tss.flatten) := by
  rw [pushBatch, (schedule.firstFailure_eq_ok ordered).mpr htss, ok_bind,
    foldlM_pushAll (h.of_mapM htss)]

/-- A batch with an element that fails reports one of its elements that fail. -/
theorem pushBatch_of_error {batch : List Nat} (ordered : batch.Pairwise (· < ·)) {c : Failure α}
    (h : batch.mapM task = .error c) :
    ∃ e ∈ batch, ∃ c, task e = .error c ∧ pushBatch schedule task b batch = .error c := by
  cases hfirst : schedule.firstFailure task batch with
  | ok tss => cases ((schedule.firstFailure_eq_ok ordered).mp hfirst).symm.trans h
  | error c =>
    obtain ⟨e, he, htask⟩ := schedule.exists_of_firstFailure_eq_error hfirst
    exact ⟨e, he, c, htask, by rw [pushBatch, hfirst]; rfl⟩

theorem foldlM_pushBatch_of_ok {batches : List (List Nat)}
    (ordered : ∀ batch ∈ batches, batch.Pairwise (· < ·)) (h : Inside b task batches.flatten)
    {tss : List (List (Triplet α))} (htss : batches.flatten.mapM task = .ok tss) :
    batches.foldlM (pushBatch schedule task) b = .ok (b.accept tss.flatten) := by
  induction batches generalizing b tss with
  | nil =>
    obtain rfl := pure_eq_ok.mp htss
    exact congrArg Except.ok b.accept_nil.symm
  | cons batch batches ih =>
    obtain ⟨hbatch, hbatches⟩ := List.forall_mem_cons.mp ordered
    rw [List.flatten_cons, List.mapM_append] at htss
    obtain ⟨first, hfirst, htss⟩ := bind_eq_ok.mp htss
    obtain ⟨rest, hrest, htss⟩ := bind_eq_ok.mp htss
    obtain rfl := pure_eq_ok.mp htss
    have hin : Inside b task batch := fun e he => h e (List.mem_append_left _ he)
    have hins : Inside b task batches.flatten := fun e he => h e (List.mem_append_right _ he)
    rw [List.foldlM_cons, pushBatch_of_ok schedule hbatch hin hfirst, ok_bind,
      ih (b := b.accept first.flatten) hbatches hins hrest,
      Builder.accept_append (hin.of_mapM hfirst) (hins.of_mapM hrest), List.flatten_append]

/-- The first batch with an element that fails ends the addition. -/
theorem foldlM_pushBatch_of_error {batches : List (List Nat)}
    (ordered : ∀ batch ∈ batches, batch.Pairwise (· < ·)) (h : Inside b task batches.flatten)
    {c : Failure α} (herror : batches.flatten.mapM task = .error c) :
    ∃ before batch after, batches = before ++ batch :: after ∧
      (∀ e ∈ before.flatten, ∃ ts, task e = .ok ts) ∧
      ∃ e ∈ batch, ∃ c, task e = .error c ∧
        batches.foldlM (pushBatch schedule task) b = .error c := by
  induction batches generalizing b with
  | nil => cases herror
  | cons batch batches ih =>
    obtain ⟨hbatch, hbatches⟩ := List.forall_mem_cons.mp ordered
    have hin : Inside b task batch := fun e he => h e (List.mem_append_left _ he)
    have hins : Inside b task batches.flatten := fun e he => h e (List.mem_append_right _ he)
    rw [List.flatten_cons, List.mapM_append] at herror
    cases hfirst : batch.mapM task with
    | error c =>
      obtain ⟨e, he, c, htask, hpush⟩ := pushBatch_of_error schedule (b := b) hbatch hfirst
      have hrun : (batch :: batches).foldlM (pushBatch schedule task) b = .error c := by
        rw [List.foldlM_cons, hpush]
        rfl
      exact ⟨[], batch, batches, rfl, by simp, e, he, c, htask, hrun⟩
    | ok first =>
      have hrest : batches.flatten.mapM task = .error c := by
        rw [hfirst, ok_bind] at herror
        cases hrest : batches.flatten.mapM task with
        | error c' => rw [hrest] at herror; exact herror
        | ok rest => rw [hrest] at herror; cases herror
      obtain ⟨before, batch', after, rfl, hbefore, e, he, c, htask, hpush⟩ :=
        ih (b := b.accept first.flatten) hbatches hins hrest
      refine ⟨batch :: before, batch', after, rfl, fun e' he' => ?_, e, he, c, htask, ?_⟩
      · rcases List.mem_append.mp he' with he' | he'
        · obtain ⟨ts, -, hts⟩ := exists_of_mapM_eq_ok hfirst he'
          exact ⟨ts, hts⟩
        · exact hbefore e' he'
      · rw [List.foldlM_cons, pushBatch_of_ok schedule hbatch hin hfirst, ok_bind, hpush]

end Batches

end Assembly

end LowOrderRefinement
