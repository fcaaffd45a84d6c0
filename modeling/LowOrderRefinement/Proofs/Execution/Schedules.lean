import LowOrderRefinement.Schedule
import LowOrderRefinement.Proofs.Execution.Traversal

/-! Results that do not depend on a schedule. Sorting finished tasks undoes any
schedule, so the values of tasks that all succeed are those of running the tasks
in order, and the least failure is that of the first task that fails in order.
The failure that happens first belongs to one of the tasks, but to which one the
schedule decides. -/

namespace LowOrderRefinement.Schedule

variable {β ε : Type}

theorem finish_perm (s : Schedule) (task : Nat → β) (tasks : List Nat) :
    (s.finish task tasks).Perm (tasks.map fun t => (t, task t)) :=
  (s.perm tasks).map _

/-- Sorted by task, finished tasks are listed as if they had been run in order. -/
theorem byTask_of_perm {task : Nat → β} {tasks : List Nat} {results : List (Nat × β)}
    (ordered : tasks.Pairwise (· < ·)) (h : results.Perm (tasks.map fun t => (t, task t))) :
    byTask results = tasks.map fun t => (t, task t) := by
  have hsorted : (byTask results).Pairwise fun a b => a.1 ≤ b.1 := by
    have hsort : (byTask results).Pairwise fun a b => decide (a.1 ≤ b.1) = true :=
      List.pairwise_mergeSort (fun a b c hab hbc => by simp only [decide_eq_true_eq] at *; omega)
        (fun a b => by simp only [Bool.or_eq_true, decide_eq_true_eq]; omega) results
    simpa using hsort
  have hlist : (tasks.map fun t => (t, task t)).Pairwise fun a b => a.1 ≤ b.1 :=
    List.pairwise_map.mpr (ordered.imp fun h => Nat.le_of_lt h)
  have hperm : (byTask results).Perm (tasks.map fun t => (t, task t)) :=
    (List.mergeSort_perm results _).trans h
  refine hperm.eq_of_pairwise (fun a b ha hb hab hba => ?_) hsorted hlist
  -- a result is determined by its task
  obtain ⟨t, -, rfl⟩ := List.mem_map.mp (hperm.mem_iff.mp ha)
  obtain ⟨u, -, rfl⟩ := List.mem_map.mp hb
  have htu : t = u := Nat.le_antisymm hab hba
  rw [htu]

theorem results_byTask_finish (s : Schedule) (task : Nat → β) {tasks : List Nat}
    (ordered : tasks.Pairwise (· < ·)) :
    (byTask (s.finish task tasks)).map (·.2) = tasks.map task := by
  rw [byTask_of_perm ordered (s.finish_perm task tasks), List.map_map]
  rfl

/-! ### The failure of the least task -/

section LeastFailure

variable (s : Schedule) (fatal : ε → Bool) {task : Nat → Except ε β} {tasks : List Nat}

theorem leastFailure_congr {task' : Nat → Except ε β} (h : ∀ t ∈ tasks, task t = task' t) :
    s.leastFailure fatal task tasks = s.leastFailure fatal task' tasks := by
  have hfinish : s.finish task tasks = s.finish task' tasks :=
    List.map_congr_left fun t ht => by rw [h t ((s.perm tasks).mem_iff.mp ht)]
  rw [leastFailure, hfinish, leastFailure]

@[simp] theorem fatal?_eq_some {result : Except ε β} {e : ε} :
    fatal? fatal result = some e ↔ result = .error e ∧ fatal e = true := by
  cases result with
  | ok b => simp [fatal?]
  | error e' =>
    simp only [fatal?, Option.ite_none_right_eq_some, Option.some.injEq, Except.error.injEq]
    exact and_comm.trans (and_congr_right fun heq => by rw [heq])

/-- The outcome of all tasks does not depend on the order in which they finish. -/
theorem leastFailure_eq (ordered : tasks.Pairwise (· < ·)) :
    s.leastFailure fatal task tasks =
      match (tasks.map task).findSome? (fatal? fatal) with
      | some e => .error e
      | none => tasks.mapM task := by
  simp only [leastFailure, results_byTask_finish s task ordered, List.mapM_map]
  rfl

/-- Without fatal failures the tasks fail as they do when they are run in order. -/
theorem leastFailure_eq_mapM (ordered : tasks.Pairwise (· < ·))
    (mild : ∀ t ∈ tasks, ∀ e, task t = .error e → fatal e = false) :
    s.leastFailure fatal task tasks = tasks.mapM task := by
  have hnone : (tasks.map task).findSome? (fatal? fatal) = none := by
    rw [List.findSome?_eq_none_iff]
    intro result hresult
    obtain ⟨t, ht, rfl⟩ := List.mem_map.mp hresult
    cases h : task t with
    | error e => simp [fatal?, mild t ht e h]
    | ok b => rfl
  rw [leastFailure_eq s fatal ordered, hnone]

/-- All tasks succeed concurrently exactly when they do in order, with the same values. -/
theorem leastFailure_eq_ok (ordered : tasks.Pairwise (· < ·)) {values : List β} :
    s.leastFailure fatal task tasks = .ok values ↔ tasks.mapM task = .ok values := by
  constructor
  · intro h
    rw [leastFailure_eq s fatal ordered] at h
    split at h
    · cases h
    · exact h
  · intro h
    rw [leastFailure_eq_mapM s fatal ordered, h]
    intro t ht e he
    obtain ⟨b, -, hb⟩ := exists_of_mapM_eq_ok h ht
    rw [hb] at he
    cases he

theorem exists_of_leastFailure_eq_error (ordered : tasks.Pairwise (· < ·)) {e : ε}
    (h : s.leastFailure fatal task tasks = .error e) : ∃ t ∈ tasks, task t = .error e := by
  rw [leastFailure_eq s fatal ordered] at h
  split at h
  next e' hfatal =>
    cases h
    obtain ⟨result, hresult, hsome⟩ := List.exists_of_findSome?_eq_some hfatal
    obtain ⟨t, ht, rfl⟩ := List.mem_map.mp hresult
    exact ⟨t, ht, ((fatal?_eq_some fatal).mp hsome).1⟩
  next =>
    obtain ⟨before, t, after, rfl, ht, -⟩ := mapM_eq_error.mp h
    exact ⟨t, by simp, ht⟩

/-- A failure that is not fatal is that of the first task that fails in order. -/
theorem mapM_of_leastFailure_eq_error (ordered : tasks.Pairwise (· < ·)) {e : ε}
    (h : s.leastFailure fatal task tasks = .error e) (mild : fatal e = false) :
    tasks.mapM task = .error e := by
  rw [leastFailure_eq s fatal ordered] at h
  split at h
  next e' hfatal =>
    cases h
    obtain ⟨result, -, hsome⟩ := List.exists_of_findSome?_eq_some hfatal
    have htrue := ((fatal?_eq_some fatal).mp hsome).2
    rw [mild] at htrue
    cases htrue
  next => exact h

end LeastFailure

/-! ### The failure that happens first -/

section FirstFailure

variable (s : Schedule) {task : Nat → Except ε β} {tasks : List Nat}

theorem firstFailure_eq (task : Nat → Except ε β) (tasks : List Nat) :
    s.firstFailure task tasks =
      ((s.order tasks).mapM fun t => (task t).map fun value => (t, value)).map
        fun done => (byTask done).map (·.2) := by
  simp only [firstFailure, finish, List.mapM_map, Function.comp_def]
  rfl

/-- All tasks succeed concurrently exactly when they do in order, with the same values. -/
theorem firstFailure_eq_ok (ordered : tasks.Pairwise (· < ·)) {values : List β} :
    s.firstFailure task tasks = .ok values ↔ tasks.mapM task = .ok values := by
  have hok {values : List β} (h : tasks.mapM task = .ok values) :
      s.firstFailure task tasks = .ok values := by
    rcases values with _ | ⟨value, rest⟩
    · obtain rfl : tasks = [] := List.length_eq_zero_iff.mp (length_of_mapM_eq_ok h).symm
      rw [firstFailure_eq, List.Perm.eq_nil (s.perm [])]
      simp [byTask, pure, Except.pure, Except.map]
    · obtain ⟨v, hv⟩ := exists_forall_eq_ok h value
      have hvalues : value :: rest = tasks.map v := by
        rw [mapM_ok_of_forall hv] at h
        exact (Except.ok.inj h).symm
      have hdone : ((s.order tasks).mapM fun t => (task t).map fun value => (t, value)) =
          .ok ((s.order tasks).map fun t => (t, v t)) :=
        mapM_ok_of_forall fun t ht => by rw [hv t ((s.perm tasks).mem_iff.mp ht)]; rfl
      rw [firstFailure_eq, hdone, hvalues]
      change Except.ok ((byTask _).map _) = _
      rw [byTask_of_perm ordered ((s.perm tasks).map _), List.map_map]
      rfl
  refine ⟨fun h => ?_, hok⟩
  obtain ⟨done, hdone, -⟩ := map_eq_ok.mp (s.firstFailure_eq task tasks ▸ h)
  obtain ⟨values', hvalues'⟩ : ∃ values', tasks.mapM task = .ok values' :=
    exists_mapM_eq_ok fun t ht => by
      obtain ⟨p, -, hp⟩ := exists_of_mapM_eq_ok hdone ((s.perm tasks).mem_iff.mpr ht)
      obtain ⟨value, hvalue, -⟩ := map_eq_ok.mp hp
      exact ⟨value, hvalue⟩
  rw [hok hvalues'] at h
  exact h ▸ hvalues'

theorem exists_of_firstFailure_eq_error {e : ε} (h : s.firstFailure task tasks = .error e) :
    ∃ t ∈ tasks, task t = .error e := by
  rw [firstFailure_eq, map_eq_error, mapM_eq_error] at h
  obtain ⟨before, t, after, horder, ht, -⟩ := h
  have hmem : t ∈ s.order tasks := by simp [horder]
  exact ⟨t, (s.perm tasks).mem_iff.mp hmem, map_eq_error.mp ht⟩

end FirstFailure

end LowOrderRefinement.Schedule
