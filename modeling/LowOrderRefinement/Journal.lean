/-! Computations that keep a journal of what they report on the way. The journal is
kept also when the computation fails, with everything that was reported before
the failure. -/

namespace LowOrderRefinement

/-- How important a report is. -/
inductive Level
  | info
  | debug
  | warn
deriving DecidableEq

namespace Level

def label : Level → String
  | info => "INFO"
  | debug => "DEBUG"
  | warn => "WARN"

end Level

/-- One line of a journal. -/
structure Report where
  level : Level
  text : String
deriving DecidableEq

def Report.line (r : Report) : String := r.level.label ++ " " ++ r.text

/-- The reports of a computation, in order, and how it ended. -/
structure Journaled (ε α : Type) where
  journal : List Report
  result : Except ε α

namespace Journaled

variable {ε α β : Type}

def pure (a : α) : Journaled ε α := ⟨[], .ok a⟩

def bind (x : Journaled ε α) (f : α → Journaled ε β) : Journaled ε β :=
  match x.result with
  | .ok a =>
    let y := f a
    ⟨x.journal ++ y.journal, y.result⟩
  | .error e => ⟨x.journal, .error e⟩

instance : Monad (Journaled ε) where
  pure := pure
  bind := bind

def quiet (x : Except ε α) : Journaled ε α := ⟨[], x⟩

instance : MonadLift (Except ε) (Journaled ε) where
  monadLift := quiet

def report (level : Level) (text : String) : Journaled ε Unit := ⟨[⟨level, text⟩], .ok ()⟩

def mapError {δ : Type} (f : ε → δ) (x : Journaled ε α) : Journaled δ α :=
  ⟨x.journal, x.result.mapError f⟩

@[simp] theorem result_pure (a : α) : (Pure.pure a : Journaled ε α).result = .ok a := rfl

@[simp] theorem result_quiet (x : Except ε α) : (quiet x).result = x := rfl

@[simp] theorem result_report (level : Level) (text : String) :
    (report level text : Journaled ε Unit).result = .ok () := rfl

@[simp] theorem result_bind (x : Journaled ε α) (f : α → Journaled ε β) :
    (x >>= f).result = x.result >>= fun a => (f a).result := by
  rcases x with ⟨journal, _ | a⟩ <;> rfl

end Journaled

end LowOrderRefinement
