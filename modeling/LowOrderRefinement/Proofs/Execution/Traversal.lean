import Mathlib.Algebra.Group.Nat.Defs
import LowOrderRefinement.Error

/-! Computations over the entries of a list that stop at the first failure. Such a
computation succeeds exactly when every step does; it fails with the failure of
the first step that fails; and splitting the list into batches changes nothing. -/

namespace LowOrderRefinement

variable {ε β γ δ : Type}

@[simp] theorem pure_eq_ok {a b : β} : (pure a : Except ε β) = .ok b ↔ a = b := by
  simp [pure, Except.pure]

@[simp] theorem ok_bind (a : β) (f : β → Except ε γ) : (Except.ok a >>= f) = f a := rfl

@[simp] theorem error_bind (e : ε) (f : β → Except ε γ) :
    ((Except.error e : Except ε β) >>= f) = .error e := rfl

theorem bind_ok (x : Except ε β) : (x >>= fun a => .ok a) = x := bind_pure x

theorem bind_eq_error {x : Except ε β} {f : β → Except ε γ} {e : ε} :
    (x >>= f) = .error e ↔ x = .error e ∨ ∃ a, x = .ok a ∧ f a = .error e := by
  cases x <;> simp

theorem exists_of_isOk {ε α : Type} {x : Except ε α} (h : x.isOk = true) : ∃ a, x = .ok a := by
  cases x with
  | error e => cases h
  | ok a => exact ⟨a, rfl⟩

theorem bind_congr_of_ok {x : Except ε β} {f g : β → Except ε γ}
    (h : ∀ a, x = .ok a → f a = g a) : (x >>= f) = x >>= g := by
  cases x with
  | error e => rfl
  | ok a => exact h a rfl

/-- Two computations in a row end as two others when each of them ends as its counterpart. -/
theorem discard_bind_congr {σ : Type} {x : Except ε β} {x' : Except ε γ} {f : β → Except ε δ}
    {f' : γ → Except ε σ} (hx : discard x = discard x')
    (hf : ∀ a a', x = .ok a → x' = .ok a' → discard (f a) = discard (f' a')) :
    discard (x >>= f) = discard (x' >>= f') := by
  cases x <;> cases x' <;> cases hx
  · rfl
  · exact hf _ _ rfl rfl

theorem bind_congr_of_discard {x : Except ε β} {y : Except ε γ} {f : β → Except ε δ}
    {g : γ → Except ε δ} (h : discard x = discard y) (hfg : ∀ a b, f a = g b) :
    (x >>= f) = y >>= g := by
  cases x <;> cases y <;> cases h
  · rfl
  · exact hfg _ _

@[simp] theorem mapError_eq_ok {x : Except ε β} {f : ε → δ} {b : β} :
    x.mapError f = .ok b ↔ x = .ok b := by
  cases x with
  | error e =>
    show (.error (f e) : Except δ β) = .ok b ↔ _
    simp only [reduceCtorEq]
  | ok a =>
    show (.ok a : Except δ β) = .ok b ↔ _
    simp only [Except.ok.injEq]

theorem mapError_bind (x : Except ε β) (f : β → Except ε γ) (g : ε → δ) :
    (x >>= f).mapError g = x.mapError g >>= fun a => (f a).mapError g := by
  cases x <;> rfl

@[simp] theorem map_eq_ok {x : Except ε β} {f : β → γ} {c : γ} :
    x.map f = .ok c ↔ ∃ b, x = .ok b ∧ f b = c := by
  cases x <;> simp [Except.map]

@[simp] theorem map_eq_error {x : Except ε β} {f : β → γ} {e : ε} :
    x.map f = .error e ↔ x = .error e := by
  cases x <;> simp [Except.map]

@[simp] theorem lift_eq_ok {x : Checked β} {b : β} :
    (liftM x : Outcome δ β) = .ok b ↔ x = .ok b :=
  mapError_eq_ok

theorem lift_ok (b : β) : (liftM (.ok b : Checked β) : Outcome δ β) = .ok b := rfl

theorem discard_lift_congr {x : Checked β} {y : Checked γ} (h : discard x = discard y) :
    discard (liftM x : Outcome δ β) = discard (liftM y : Outcome δ γ) := by
  cases x <;> cases y <;> cases h <;> rfl

@[simp] theorem agree_eq_ok {quantity : Quantity} {expected actual : Nat} {u : Unit} :
    (Outcome.agree quantity expected actual : Outcome δ Unit) = .ok u ↔ expected = actual := by
  unfold Outcome.agree
  split <;> simp [*, Outcome.refuse]

/-! ### Lists of steps -/

/-- A list of steps succeeds exactly when every step does. -/
theorem mapM_eq_ok {f : β → Except ε γ} {xs : List β} {ys : List γ} :
    xs.mapM f = .ok ys ↔ xs.map f = ys.map .ok := by
  induction xs generalizing ys with
  | nil => simp [pure, Except.pure, eq_comm]
  | cons x xs ih =>
    rw [List.mapM_cons, List.map_cons]
    simp only [bind_eq_ok, pure_eq_ok, ih]
    constructor
    · rintro ⟨y, hy, zs, hzs, rfl⟩
      rw [hy, hzs, List.map_cons]
    · intro h
      cases ys with
      | nil => simp at h
      | cons y ys =>
        obtain ⟨hy, hys⟩ := List.cons.inj h
        exact ⟨y, hy, ys, hys, rfl⟩

theorem mapM_congr {f g : β → Except ε γ} {xs : List β} (h : ∀ x ∈ xs, f x = g x) :
    xs.mapM f = xs.mapM g := by
  induction xs with
  | nil => rfl
  | cons x xs ih =>
    obtain ⟨hx, hxs⟩ := List.forall_mem_cons.mp h
    rw [List.mapM_cons, List.mapM_cons, hx, ih hxs]

theorem discard_mapM_congr {f : β → Except ε γ} {g : β → Except ε δ} {xs : List β}
    (h : ∀ x ∈ xs, discard (f x) = discard (g x)) :
    discard (xs.mapM f) = discard (xs.mapM g) := by
  induction xs with
  | nil => rfl
  | cons x xs ih =>
    obtain ⟨hx, hxs⟩ := List.forall_mem_cons.mp h
    rw [List.mapM_cons, List.mapM_cons]
    refine discard_bind_congr hx fun y z _ _ => ?_
    exact discard_bind_congr (ih hxs) fun ys zs _ _ => rfl

theorem mapM_ok_of_forall {f : β → Except ε γ} {g : β → γ} {xs : List β}
    (h : ∀ x ∈ xs, f x = .ok (g x)) : xs.mapM f = .ok (xs.map g) := by
  rw [mapM_eq_ok, List.map_map]
  exact List.map_congr_left h

theorem exists_of_mapM_eq_ok {f : β → Except ε γ} {xs : List β} {ys : List γ}
    (h : xs.mapM f = .ok ys) {x : β} (hx : x ∈ xs) : ∃ y ∈ ys, f x = .ok y := by
  have hmem : f x ∈ ys.map Except.ok := mapM_eq_ok.mp h ▸ List.mem_map_of_mem hx
  obtain ⟨y, hy, he⟩ := List.mem_map.mp hmem
  exact ⟨y, hy, he.symm⟩

theorem exists_of_mem_of_mapM_eq_ok {f : β → Except ε γ} {xs : List β} {ys : List γ}
    (h : xs.mapM f = .ok ys) {y : γ} (hy : y ∈ ys) : ∃ x ∈ xs, f x = .ok y := by
  have hmem : Except.ok y ∈ xs.map f := mapM_eq_ok.mp h ▸ List.mem_map_of_mem hy
  exact List.mem_map.mp hmem

theorem length_of_mapM_eq_ok {f : β → Except ε γ} {xs : List β} {ys : List γ}
    (h : xs.mapM f = .ok ys) : ys.length = xs.length := by
  simpa using (congrArg List.length (mapM_eq_ok.mp h)).symm

theorem getElem?_of_mapM_eq_ok {f : β → Except ε γ} {xs : List β} {ys : List γ}
    (h : xs.mapM f = .ok ys) {i : Nat} {x : β} (hx : xs[i]? = some x) :
    ∃ y, ys[i]? = some y ∧ f x = .ok y := by
  have hat := congrArg (·[i]?) (mapM_eq_ok.mp h)
  simp only [List.getElem?_map, hx, Option.map_some] at hat
  obtain ⟨y, hy, he⟩ := Option.map_eq_some_iff.mp hat.symm
  exact ⟨y, hy, he.symm⟩

theorem exists_mapM_eq_ok {f : β → Except ε γ} {xs : List β}
    (h : ∀ x ∈ xs, ∃ y, f x = .ok y) : ∃ ys, xs.mapM f = .ok ys := by
  induction xs with
  | nil => exact ⟨[], rfl⟩
  | cons x xs ih =>
    obtain ⟨y, hy⟩ := h x List.mem_cons_self
    obtain ⟨ys, hys⟩ := ih fun z hz => h z (List.mem_cons_of_mem x hz)
    exact ⟨y :: ys, by rw [List.mapM_cons, hy, hys]; rfl⟩

theorem getElem?_of_mapM_zipIdx_eq_ok {f : β × Nat → Except ε γ} {xs : List β} {ys : List γ}
    (h : xs.zipIdx.mapM f = .ok ys) {i : Nat} {x : β} (hx : xs[i]? = some x) :
    ∃ y, ys[i]? = some y ∧ f (x, i) = .ok y :=
  getElem?_of_mapM_eq_ok h (by rw [List.getElem?_zipIdx, hx, Nat.zero_add]; rfl)

theorem exists_mapM_zipIdx_eq_ok {f : β × Nat → Except ε γ} {xs : List β} :
    (∃ ys, xs.zipIdx.mapM f = .ok ys) ↔ ∀ i x, xs[i]? = some x → ∃ y, f (x, i) = .ok y := by
  constructor
  · rintro ⟨ys, hys⟩ i x hx
    obtain ⟨y, -, hy⟩ := getElem?_of_mapM_zipIdx_eq_ok hys hx
    exact ⟨y, hy⟩
  · exact fun h => exists_mapM_eq_ok fun p hp => h p.2 p.1 (List.mem_zipIdx_iff_getElem?.mp hp)

theorem mapM_eq_ok_of_imp {f g : β → Except ε γ} {xs : List β} {ys : List γ}
    (h : xs.mapM f = .ok ys) (hg : ∀ x ∈ xs, ∀ y, f x = .ok y → g x = .ok y) :
    xs.mapM g = .ok ys := by
  rw [mapM_eq_ok, ← mapM_eq_ok.mp h]
  refine List.map_congr_left fun x hx => ?_
  obtain ⟨y, -, hy⟩ := exists_of_mapM_eq_ok h hx
  rw [hy, hg x hx y hy]

/-- Steps that all succeed compute a function. -/
theorem exists_forall_eq_ok {f : β → Except ε γ} {xs : List β} {ys : List γ}
    (h : xs.mapM f = .ok ys) (default : γ) : ∃ g : β → γ, ∀ x ∈ xs, f x = .ok (g x) := by
  refine ⟨fun x => (f x).toOption.getD default, fun x hx => ?_⟩
  obtain ⟨y, -, hy⟩ := exists_of_mapM_eq_ok h hx
  simp [hy, Except.toOption]

/-- A list of steps fails with the failure of the first step that fails. -/
theorem mapM_eq_error {f : β → Except ε γ} {xs : List β} {e : ε} :
    xs.mapM f = .error e ↔
      ∃ before x after, xs = before ++ x :: after ∧ f x = .error e ∧
        ∀ y ∈ before, ∃ b, f y = .ok b := by
  induction xs with
  | nil => simp [pure, Except.pure]
  | cons x xs ih =>
    rw [List.mapM_cons, bind_eq_error]
    constructor
    · rintro (hx | ⟨y, hy, hrest⟩)
      · exact ⟨[], x, xs, rfl, hx, by simp⟩
      · rcases bind_eq_error.mp hrest with hrest | ⟨ys, -, hnil⟩
        · obtain ⟨before, z, after, rfl, hz, hbefore⟩ := ih.mp hrest
          exact ⟨x :: before, z, after, rfl, hz, List.forall_mem_cons.mpr ⟨⟨y, hy⟩, hbefore⟩⟩
        · cases hnil
    · rintro ⟨before, z, after, hxs, hz, hbefore⟩
      cases before with
      | nil =>
        obtain ⟨rfl, rfl⟩ := List.cons.inj hxs
        exact .inl hz
      | cons y before =>
        obtain ⟨rfl, rfl⟩ := List.cons.inj hxs
        obtain ⟨⟨b, hb⟩, hbefore⟩ := List.forall_mem_cons.mp hbefore
        have hrest := ih.mpr ⟨before, z, after, rfl, hz, hbefore⟩
        exact .inr ⟨b, hb, by rw [hrest]; rfl⟩

theorem range_eq_append_cons {n i : Nat} {before after : List Nat}
    (h : List.range n = before ++ i :: after) : before = List.range i ∧ i < n := by
  have hlen : before.length < n := by
    have := congrArg List.length h
    simp at this
    omega
  have hi : i = before.length := by
    have := congrArg (·[before.length]?) h
    simpa [hlen] using this.symm
  refine ⟨?_, hi ▸ hlen⟩
  have := congrArg (List.take before.length) h
  rw [List.take_range, List.take_left' rfl, Nat.min_eq_left (Nat.le_of_lt hlen)] at this
  rw [hi, this]

theorem mapM_range_eq_error {f : Nat → Except ε γ} {n : Nat} {e : ε} :
    (List.range n).mapM f = .error e ↔
      ∃ i < n, f i = .error e ∧ ∀ j < i, ∃ b, f j = .ok b := by
  rw [mapM_eq_error]
  constructor
  · rintro ⟨before, i, after, hrange, hi, hbefore⟩
    obtain ⟨rfl, hlt⟩ := range_eq_append_cons hrange
    exact ⟨i, hlt, hi, fun j hj => hbefore j (List.mem_range.mpr hj)⟩
  · rintro ⟨i, hi, he, hbefore⟩
    obtain ⟨k, rfl⟩ := Nat.exists_eq_add_of_lt hi
    refine ⟨List.range i, i, (List.range k).map fun j => i + 1 + j, ?_, he, fun j hj =>
      hbefore j (List.mem_range.mp hj)⟩
    rw [show i + k + 1 = i + 1 + k by omega, List.range_add, List.range_succ, List.append_assoc,
      List.singleton_append]

theorem foldlM_zipIdx {σ : Type} {xs : List β} {start : Nat}
    {step : σ → β × Nat → Except ε σ} {step' : σ → β → Except ε σ}
    (h : ∀ s, ∀ p ∈ xs.zipIdx start, step s p = step' s p.1) (s : σ) :
    (xs.zipIdx start).foldlM step s = xs.foldlM step' s := by
  induction xs generalizing start s with
  | nil => rfl
  | cons x xs ih =>
    rw [List.zipIdx_cons] at h ⊢
    rw [List.foldlM_cons, List.foldlM_cons, h s (x, start) List.mem_cons_self]
    refine bind_congr_of_ok fun s' _ => ?_
    exact ih (fun s p hp => h s p (List.mem_cons_of_mem _ hp)) s'

/-- A walk over the numbers from zero fails in a step that comes after steps that succeed. -/
theorem foldlM_range_eq_error {σ : Type} {step : σ → Nat → Except ε σ} {n : Nat} {s : σ} {e : ε} :
    (List.range n).foldlM step s = .error e ↔
      ∃ k < n, ∃ t, (List.range k).foldlM step s = .ok t ∧ step t k = .error e := by
  induction n with
  | zero => simp [pure, Except.pure]
  | succ n ih =>
    rw [List.range_succ, List.foldlM_append, bind_eq_error, ih]
    simp only [List.foldlM_cons, List.foldlM_nil, bind_pure]
    constructor
    · rintro (⟨k, hk, hrun⟩ | hlast)
      · exact ⟨k, Nat.lt_succ_of_lt hk, hrun⟩
      · exact ⟨n, Nat.lt_succ_self n, hlast⟩
    · rintro ⟨k, hk, hrun⟩
      rcases Nat.lt_succ_iff_lt_or_eq.mp hk with hk | rfl
      · exact .inl ⟨k, hk, hrun⟩
      · exact .inr hrun

/-! ### No faults -/

namespace Outcome

/-- A computation that may refuse its input but breaks no requirement. -/
def Faultless (x : Outcome δ β) : Prop := ∀ c, x ≠ .error (.fault c)

theorem faultless_ok (b : β) : Faultless (.ok b : Outcome δ β) := fun _ h => by cases h

theorem faultless_refuse (cause : Error δ) : Faultless (refuse cause : Outcome δ β) :=
  fun _ h => by cases h

theorem faultless_lift {x : Checked β} {b : β} (h : x = .ok b) :
    Faultless (liftM x : Outcome δ β) := by
  rw [h]
  exact faultless_ok b

theorem Faultless.bind {x : Outcome δ β} {f : β → Outcome δ γ} (hx : Faultless x)
    (hf : ∀ b, x = .ok b → Faultless (f b)) : Faultless (x >>= f) := by
  intro c h
  rcases bind_eq_error.mp h with h | ⟨b, hb, h⟩
  · exact hx c h
  · exact hf b hb c h

theorem Faultless.mapM {f : β → Outcome δ γ} {xs : List β} (hf : ∀ x ∈ xs, Faultless (f x)) :
    Faultless (xs.mapM f) := by
  intro c h
  obtain ⟨before, x, after, rfl, hx, -⟩ := mapM_eq_error.mp h
  exact hf x (by simp) c hx

theorem Faultless.foldlM {σ : Type} {step : σ → β → Outcome δ σ} {xs : List β}
    (h : ∀ s, ∀ x ∈ xs, Faultless (step s x)) (s : σ) : Faultless (xs.foldlM step s) := by
  induction xs generalizing s with
  | nil => exact faultless_ok s
  | cons x xs ih =>
    rw [List.foldlM_cons]
    exact (h s x List.mem_cons_self).bind fun s' _ =>
      ih (fun s y hy => h s y (List.mem_cons_of_mem x hy)) s'

theorem faultless_agree (quantity : Quantity) (expected actual : Nat) :
    Faultless (agree quantity expected actual : Outcome δ Unit) := by
  unfold agree
  split
  · exact faultless_ok ()
  · exact faultless_refuse _

theorem faultless_dimension (dim : Nat) : Faultless (dimension dim : Outcome δ Dimension) := by
  unfold dimension
  split
  · exact faultless_ok _
  · exact faultless_refuse _

/-! ### Reported errors -/

/-- Whatever a computation reports about its input has the property. -/
def Reports (D : Error δ → Prop) (x : Outcome δ β) : Prop :=
  ∀ cause, x = .error (.error cause) → D cause

variable {D : Error δ → Prop}

theorem reports_ok (b : β) : Reports D (.ok b : Outcome δ β) := fun _ h => by cases h

theorem reports_refuse {cause : Error δ} (h : D cause) : Reports D (refuse cause : Outcome δ β) :=
  fun _ he => by cases he; exact h

theorem reports_lift (x : Checked β) : Reports D (liftM x : Outcome δ β) := by
  intro cause h
  cases x with
  | error c => cases h
  | ok b => cases h

theorem reports_agree {quantity : Quantity} {expected actual : Nat}
    (h : expected ≠ actual → D (.mismatch quantity expected actual)) :
    Reports D (agree quantity expected actual : Outcome δ Unit) := by
  unfold agree
  split
  · exact reports_ok ()
  next hne => exact reports_refuse (h hne)

theorem Reports.imp {D' : Error δ → Prop} {x : Outcome δ β} (hx : Reports D x)
    (h : ∀ cause, D cause → D' cause) : Reports D' x :=
  fun cause he => h cause (hx cause he)

theorem Reports.bind {x : Outcome δ β} {f : β → Outcome δ γ} (hx : Reports D x)
    (hf : ∀ b, x = .ok b → Reports D (f b)) : Reports D (x >>= f) := by
  intro cause h
  rcases bind_eq_error.mp h with h | ⟨b, hb, h⟩
  · exact hx cause h
  · exact hf b hb cause h

theorem Reports.mapM {f : β → Outcome δ γ} {xs : List β} (hf : ∀ x ∈ xs, Reports D (f x)) :
    Reports D (xs.mapM f) := by
  intro cause h
  obtain ⟨before, x, after, rfl, hx, -⟩ := mapM_eq_error.mp h
  exact hf x (by simp) cause hx

theorem Reports.foldlM {σ : Type} {step : σ → β → Outcome δ σ} {xs : List β}
    (h : ∀ s, ∀ x ∈ xs, Reports D (step s x)) (s : σ) : Reports D (xs.foldlM step s) := by
  induction xs generalizing s with
  | nil => exact reports_ok s
  | cons x xs ih =>
    rw [List.foldlM_cons]
    exact (h s x List.mem_cons_self).bind fun s' _ =>
      ih (fun s y hy => h s y (List.mem_cons_of_mem x hy)) s'

/-- A computation without a fault that reports nothing has a result. -/
theorem Faultless.exists_of_reports {x : Outcome δ β} (h : Faultless x)
    (hnone : Reports (fun _ => False) x) : ∃ b, x = .ok b := by
  cases x with
  | ok b => exact ⟨b, rfl⟩
  | error e =>
    cases e with
    | fault c => exact absurd rfl (h c)
    | error cause => exact (hnone cause rfl).elim

end Outcome

end LowOrderRefinement
