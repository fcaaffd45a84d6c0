import LowOrderRefinement.Proofs.Errors.Refusals

/-! Outcomes whose values are replaced, and with them the determinants that are reported.
Steps that commute with the replacement do so together, whether they are taken one
after the other or concurrently: the same step fails, for the same cause. Errors of
the configuration and of an element report no determinant, so that they are not
replaced at all. -/

namespace LowOrderRefinement

variable {α β γ δ σ τ : Type}

/-- The same failure with a reported determinant replaced. -/
def Failure.map (f : α → β) : Failure α → Failure β
  | error cause => error (cause.map f)
  | fault c => fault c

@[simp] theorem Failure.isFault_map (f : α → β) (e : Failure α) :
    (e.map f).isFault = e.isFault := by
  cases e <;> rfl

theorem Error.map_of_kind (f : α → α) {cause : Error α} (h : cause.kind ≠ .geometry) :
    cause.map f = cause := by
  cases cause with
  | nonPositiveDeterminant => exact absurd rfl h
  | _ => rfl

namespace Outcome

/-- The outcome with its value replaced, or with the determinant that it reports replaced. -/
def transform (g : α → β) (f : γ → δ) : Outcome α γ → Outcome β δ
  | .ok c => .ok (f c)
  | .error e => .error (e.map g)

variable {g : α → β} {f : γ → δ}

@[simp] theorem transform_ok (c : γ) : transform g f (.ok c) = .ok (f c) := rfl

@[simp] theorem transform_error (e : Failure α) :
    transform g f (.error e) = .error (e.map g) := rfl

theorem transform_lift (x : Checked γ) :
    transform g f (liftM x : Outcome α γ) = liftM (x.map f) := by
  cases x <;> rfl

theorem transform_lift_id (x : Checked γ) :
    transform g id (liftM x : Outcome α γ) = liftM x := by
  cases x <;> rfl

theorem transform_map {φ : γ → σ} {φ' : δ → τ} {f' : σ → τ} (h : ∀ c, f' (φ c) = φ' (f c))
    (x : Outcome α γ) : transform g f' (x.map φ) = (transform g f x).map φ' := by
  cases x with
  | error e => rfl
  | ok c => exact congrArg Except.ok (h c)

theorem transform_bind {x : Outcome α γ} {x' : Outcome β δ} {k : γ → Outcome α σ}
    {k' : δ → Outcome β τ} {f' : σ → τ} (hx : transform g f x = x')
    (hk : ∀ c, x = .ok c → transform g f' (k c) = k' (f c)) :
    transform g f' (x >>= k) = x' >>= k' := by
  subst hx
  cases x with
  | error e => rfl
  | ok c => exact hk c rfl

theorem transform_mapM {k : σ → Outcome α γ} {k' : σ → Outcome β δ} {xs : List σ}
    (h : ∀ x ∈ xs, transform g f (k x) = k' x) :
    transform g (List.map f) (xs.mapM k) = xs.mapM k' := by
  induction xs with
  | nil => rfl
  | cons x xs ih =>
    obtain ⟨hx, hxs⟩ := List.forall_mem_cons.mp h
    rw [List.mapM_cons, List.mapM_cons]
    refine transform_bind hx fun c _ => ?_
    exact transform_bind (ih hxs) fun cs _ => rfl

theorem transform_foldlM {step : γ → σ → Outcome α γ} {step' : δ → σ → Outcome β δ}
    {xs : List σ} (h : ∀ x ∈ xs, ∀ c, transform g f (step c x) = step' (f c) x) (c : γ) :
    transform g f (xs.foldlM step c) = xs.foldlM step' (f c) := by
  induction xs generalizing c with
  | nil => rfl
  | cons x xs ih =>
    obtain ⟨hx, hxs⟩ := List.forall_mem_cons.mp h
    rw [List.foldlM_cons, List.foldlM_cons]
    exact transform_bind (hx c) fun c' _ => ih hxs c'

/-- Errors that report no determinant are not replaced. -/
theorem transform_of_reports {g : α → α} {x : Outcome α γ}
    (h : x.Reports fun cause => cause.kind ≠ .geometry) : transform g id x = x := by
  cases x with
  | ok c => rfl
  | error e =>
    cases e with
    | fault c => rfl
    | error cause => exact congrArg (Except.error ∘ Failure.error) (cause.map_of_kind g (h cause rfl))

/-- Steps that fail alike, without a determinant, may have unrelated values. -/
theorem transform_bind_of_discard {g : α → α} {x : Outcome α γ} {x' : Outcome α δ}
    {k : γ → Outcome α σ} {k' : δ → Outcome α τ} {f : σ → τ} (hx : discard x' = discard x)
    (hkind : x.Reports fun cause => cause.kind ≠ .geometry)
    (hk : ∀ c c', x = .ok c → x' = .ok c' → transform g f (k c) = k' c') :
    transform g f (x >>= k) = x' >>= k' := by
  have hsame : transform g id x = x := transform_of_reports hkind
  cases x <;> cases x' <;> cases hx
  · exact congrArg Except.error (Except.error.inj hsame)
  · exact hk _ _ rfl rfl

end Outcome

/-! ### Errors without a determinant -/

theorem Space.kind_gather (space : Space) (nodes e : Nat) :
    (space.gather nodes e : Outcome α (Array Nat)).Reports fun cause => cause.kind ≠ .geometry := by
  refine Outcome.Reports.bind (Outcome.reports_agree fun _ => nofun) fun _ _ => ?_
  split
  · exact Outcome.reports_refuse nofun
  · exact Outcome.reports_ok _

theorem Assembly.kind_setup [Scalar α] (r : Refinement α) (space : Space) :
    (setup r space).Reports fun cause => cause.kind ≠ .geometry := by
  unfold setup
  split
  · exact Outcome.Reports.bind (Outcome.reports_refuse nofun) fun _ h => by cases h
  refine Outcome.Reports.bind (Outcome.reports_dimension fun _ => nofun) fun dim _ => ?_
  refine Outcome.Reports.bind (Outcome.reports_agree fun _ => nofun) fun _ _ => ?_
  refine Outcome.Reports.bind ?_ fun kernel _ => ?_
  · unfold Kernel.select
    split
    · exact Outcome.reports_refuse nofun
    · exact Outcome.reports_ok _
  refine Outcome.Reports.bind (Outcome.reports_lift _) fun nodes _ => ?_
  refine Outcome.Reports.bind ?_ fun _ _ => Outcome.reports_ok _
  refine Outcome.Reports.bind (Outcome.reports_agree fun _ => nofun) fun _ _ => ?_
  refine (Space.reports_checkEntries _ _).imp fun cause h => ?_
  obtain ⟨index, rfl⟩ := h
  nofun

namespace Refinement

theorem kind_slots (r : Refinement α) (dim : Dimension) (order elements : Nat) :
    (r.slots dim order elements).Reports fun cause => cause.kind ≠ .geometry := by
  refine Outcome.Reports.bind (Outcome.reports_lift _) fun perElement _ => ?_
  refine Outcome.Reports.bind (Outcome.reports_lift _) fun total _ => ?_
  refine Outcome.Reports.bind (Outcome.reports_agree fun _ => nofun) fun _ _ => ?_
  refine Outcome.Reports.bind (Outcome.Reports.foldlM (fun slots s _ => ?_) _) fun filled _ =>
    Outcome.Reports.bind (Outcome.reports_lift _) fun _ _ => Outcome.reports_ok _
  refine Outcome.Reports.bind (Assembly.reports_checkGeometry fun _ => nofun) fun _ _ => ?_
  dsimp only
  split
  · exact Outcome.reports_refuse nofun
  split
  · exact Outcome.reports_refuse nofun
  split
  · exact Outcome.reports_ok _
  · exact Outcome.reports_refuse nofun

theorem kind_jacobianSource [Scalar α] {r : Refinement α} {dim : Dimension}
    (hr : r.dim = dim.value) (options : Options α) :
    (r.jacobianSource dim options).Reports fun cause => cause.kind ≠ .geometry :=
  Assembly.reports_jacobianSource hr (fun _ _ _ => nofun) fun _ _ _ _ =>
    ⟨fun _ => nofun, fun _ => nofun⟩

end Refinement

/-! ### Concurrent steps -/

namespace Schedule

variable (s : Schedule) {g : α → β} {f : γ → δ} {task : Nat → Outcome α γ}
  {task' : Nat → Outcome β δ} {tasks : List Nat}

/-- The same task fails first in the order of the tasks. -/
theorem transform_leastFailure (ordered : tasks.Pairwise (· < ·))
    (h : ∀ t ∈ tasks, (task t).transform g f = task' t) :
    Outcome.transform g (List.map f) (s.leastFailure Failure.isFault task tasks) =
      s.leastFailure Failure.isFault task' tasks := by
  have hfatal (x : Outcome α γ) : fatal? Failure.isFault (x.transform g f) =
      (fatal? Failure.isFault x).map (Failure.map g) := by
    cases x with
    | ok c => rfl
    | error e =>
      simp only [Outcome.transform_error, fatal?, Failure.isFault_map]
      cases e.isFault <;> rfl
  have hfirst : (tasks.map task').findSome? (fatal? Failure.isFault) =
      ((tasks.map task).findSome? (fatal? Failure.isFault)).map (Failure.map g) := by
    rw [← List.map_congr_left h, List.map_findSome?, List.findSome?_map, List.findSome?_map]
    exact congrFun (congrArg List.findSome? (funext fun t => hfatal (task t))) tasks
  rw [leastFailure_eq s _ ordered, leastFailure_eq s _ ordered, hfirst]
  cases (tasks.map task).findSome? (fatal? Failure.isFault) with
  | some e => rfl
  | none => exact Outcome.transform_mapM h

theorem map_byTask (f : γ → δ) (results : List (Nat × γ)) :
    (byTask results).map (Prod.map id f) = byTask (results.map (Prod.map id f)) :=
  List.map_mergeSort fun _ _ _ _ => rfl

/-- The same task fails first in the order of the schedule. -/
theorem transform_firstFailure (h : ∀ t ∈ tasks, (task t).transform g f = task' t) :
    Outcome.transform g (List.map f) (s.firstFailure task tasks) =
      s.firstFailure task' tasks := by
  rw [firstFailure_eq, firstFailure_eq]
  have hdone : Outcome.transform g (List.map (Prod.map id f))
      ((s.order tasks).mapM fun t => (task t).map fun value => (t, value)) =
        (s.order tasks).mapM fun t => (task' t).map fun value => (t, value) := by
    refine Outcome.transform_mapM fun t ht => ?_
    rw [← h t ((s.perm tasks).mem_iff.mp ht)]
    refine Outcome.transform_map (fun value => ?_) _
    rfl
  rw [← hdone]
  refine Outcome.transform_map (fun done => ?_) _
  rw [← map_byTask, List.map_map, List.map_map]
  rfl

end Schedule

end LowOrderRefinement
