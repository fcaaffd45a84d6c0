import LowOrderRefinement.Evaluation
import LowOrderRefinement.Kernel
import LowOrderRefinement.Space
import LowOrderRefinement.Sparse.Builder

/-! Assembly of the stiffness matrix of a high-order space through its low-order
refinement. Refinement and space are checked against each other, the metric terms
of all sub-cells are evaluated, every element contributes what its kernel makes of
its terms, and the rows and columns of essential degrees of freedom are
eliminated. Elements that are visited concurrently keep their contributions to
themselves until their batch is complete, and are then added in the order of the
elements, so that the matrix does not depend on the schedule. -/

namespace LowOrderRefinement

variable {α : Type}

namespace Space

/-- Marks an entry of an ordering, given with its index, as seen. It has to be below the number of
nodes and not yet seen. -/
def markEntry (seen : Array Bool) (entry : Nat × Nat) : Outcome α (Array Bool) :=
  match seen[entry.1]? with
  | some false => .ok (seen.setIfInBounds entry.1 true)
  | _ => .refuse (.invalidOrdering entry.2)

def checkEntries (nodes : Nat) (ordering : List Nat) : Outcome α Unit :=
  discard (ordering.zipIdx.foldlM markEntry (Array.replicate nodes false))

/-- Checks that an ordering is a permutation of the nodes of an element. -/
def checkOrdering (nodes : Nat) (ordering : Array Nat) : Outcome α Unit := do
  .agree .orderingLength nodes ordering.size
  checkEntries nodes ordering.toList

/-- The degrees of freedom of an element, which have to be as many as it has nodes and to exist in
the space. -/
def gather (space : Space) (nodes element : Nat) : Outcome α (Array Nat) := do
  let dofs := space.dofs element
  .agree .elementDofs nodes dofs.size
  match dofs.find? fun dof => space.numDofs ≤ dof with
  | some dof => .refuse (.dofOutOfBounds element dof space.numDofs)
  | none => return dofs

def contributions (space : Space) (kernel : Kernel α) (metric : MetricArray α)
    (nodes element : Nat) : Outcome α (List (Triplet α)) := do
  let dofs ← space.gather nodes element
  let terms ← metric.element element
  kernel terms dofs space.ordering

end Space

namespace Assembly

/-- The number of elements whose contributions are kept at once. -/
def batchSize : Nat := 1024

/-- Consecutive elements in batches, the last of which may be smaller. -/
def batches (elements : Nat) : List (List Nat) :=
  (List.range ((elements + batchSize - 1) / batchSize)).map fun b =>
    List.range' (b * batchSize) (min batchSize (elements - b * batchSize))

def pushInOrder (task : Nat → Outcome α (List (Triplet α))) (elements : Nat)
    (b : Builder α) : Outcome α (Builder α) :=
  (List.range elements).foldlM (fun b element => do b.pushAll (← task element)) b

/-- The contributions of the elements batch by batch. -/
def pushInBatches (schedule : Schedule) (task : Nat → Outcome α (List (Triplet α)))
    (elements : Nat) (b : Builder α) : Outcome α (Builder α) :=
  (batches elements).foldlM (fun b batch => do
    let done ← schedule.firstFailure task batch
    done.foldlM (fun b ts => b.pushAll ts) b) b

def pushElements (schedule : Schedule) (parallel : Bool)
    (task : Nat → Outcome α (List (Triplet α))) (elements : Nat) (b : Builder α) :
    Outcome α (Builder α) :=
  if parallel then pushInBatches schedule task elements b else pushInOrder task elements b

variable [Scalar α]

/-- What the checks of a refinement and a space against each other establish. -/
structure Setup (α : Type) where
  dim : Dimension
  nodes : Nat
  kernel : Kernel α

/-- Checks the basis, the dimensions, the order and the ordering. -/
def setup (r : Refinement α) (space : Space) : Outcome α (Setup α) := do
  if space.basis ≠ .nodalTensor then .refuse .unsupportedBasis
  let dim ← Outcome.dimension space.dim
  .agree .refinementDimension dim.value r.dim
  let kernel ← Kernel.select dim space.order
  let nodes ← dim.elementDofs space.order
  Space.checkOrdering nodes space.ordering
  return { dim, nodes, kernel }

/-- The contributions of all elements of a space, after the checks. -/
def accumulate (schedule : Schedule) (r : Refinement α) (space : Space) (options : Options α) :
    Journaled (Failure α) (Builder α) := do
  let s ← setup r space
  let metric ← r.evaluateMetric schedule space.order space.elements options
  Journaled.report .info ("Assembling " ++ s.dim.label ++ " LOR matrix of order " ++
    toString space.order ++ " for " ++ toString space.elements ++ " elements and " ++
    toString space.numDofs ++ " degrees of freedom")
  let task := space.contributions s.kernel metric s.nodes
  let builder ← pushElements schedule options.parallel task space.elements
    (Builder.empty space.numDofs space.numDofs)
  Journaled.report .debug ("Pushed " ++ toString builder.pushed ++ " contributions")
  return builder

/-- The stiffness matrix of a space as a conversion makes it of the contributions, without the rows
and columns of essential degrees of freedom. -/
def assembleWith (convert : Conversion α) (schedule : Schedule) (r : Refinement α) (space : Space)
    (essential : List Nat) (options : Options α) : Journaled (Failure α) (Csr α) := do
  let builder ← accumulate schedule r space options
  (builder.finalizeWith convert essential).mapError Failure.fault

/-- The stiffness matrix of a space, without the rows and columns of essential degrees of
freedom. -/
def assemble (schedule : Schedule) (r : Refinement α) (space : Space) (essential : List Nat)
    (options : Options α) : Journaled (Failure α) (Csr α) :=
  assembleWith Csr.ofTriplets schedule r space essential options

end Assembly

end LowOrderRefinement
