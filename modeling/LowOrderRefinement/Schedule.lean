/-! Independent tasks that are run concurrently. A schedule is the order in which the
tasks happen to finish; every task finishes once. Results that are sorted by task
do not depend on the schedule. Some failures are fatal: one of them anywhere
decides the outcome of all tasks, while other failures are compared by task. -/

namespace LowOrderRefinement

/-- An order in which tasks finish. -/
structure Schedule where
  order : List Nat → List Nat
  perm : ∀ tasks, (order tasks).Perm tasks

namespace Schedule

variable {β ε : Type}

def inOrder : Schedule := ⟨id, fun tasks => .refl tasks⟩

/-- Tasks with their results, in the order in which they finish. -/
def finish (s : Schedule) (task : Nat → β) (tasks : List Nat) : List (Nat × β) :=
  (s.order tasks).map fun t => (t, task t)

def byTask (results : List (Nat × β)) : List (Nat × β) :=
  results.mergeSort fun a b => a.1 ≤ b.1

def fatal? (fatal : ε → Bool) : Except ε β → Option ε
  | .error e => if fatal e then some e else none
  | .ok _ => none

/-- The values of all tasks in the order of the tasks, unless a task fails. Every task is finished
before that is decided, so that a fatal failure comes before all others, and among failures of one
kind that of the least task. -/
def leastFailure (s : Schedule) (fatal : ε → Bool) (task : Nat → Except ε β)
    (tasks : List Nat) : Except ε (List β) :=
  let results := (byTask (s.finish task tasks)).map (·.2)
  match results.findSome? (fatal? fatal) with
  | some e => .error e
  | none => results.mapM id

/-- The values of all tasks in the order of the tasks, or the failure that happens first. -/
def firstFailure (s : Schedule) (task : Nat → Except ε β) (tasks : List Nat) :
    Except ε (List β) := do
  let done ← (s.finish task tasks).mapM fun (t, result) => result.map fun value => (t, value)
  return (byTask done).map (·.2)

end Schedule

end LowOrderRefinement
