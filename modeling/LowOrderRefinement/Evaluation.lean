import LowOrderRefinement.Cell.Metric
import LowOrderRefinement.Journal
import LowOrderRefinement.MetricArray
import LowOrderRefinement.Options
import LowOrderRefinement.Schedule
import LowOrderRefinement.Slots

/-! Evaluation of the metric terms of a refinement. The sub-cells are visited slot by
slot, and each contributes the metric of its Jacobian at every vertex quadrature
point. Planar Jacobians are stored ones or follow from the vertices; those of
hexahedra always follow from the vertices. Of several refused sub-cells the one in
the least slot is reported, whatever the order of the visits. Concurrent visits
reach every slot, so that a fault in any of them comes before all errors; visits
in order end at the first failure. -/

namespace LowOrderRefinement

variable {α : Type}

/-- The Jacobians that an evaluation uses. -/
inductive JacobianSource (α : Type)
  | vertices
  /-- Stored Jacobians, and the tolerance within which the vertices have to confirm them. -/
  | stored (factors : GeometricFactors α) (verify : Option α)

namespace JacobianSource

def isStored : JacobianSource α → Bool
  | vertices => false
  | stored .. => true

/-- Whether the distance of a matrix from a reference is within a tolerance relative to the
reference. -/
def agrees [Scalar α] (reference other : Mat2 α) (tolerance : α) : Bool :=
  Scalar.le (reference.sub other).norm (tolerance * reference.norm)

def planar [Scalar α] (source : JacobianSource α) (cell : Quadrilateral α)
    (subcell point : Nat) (ξ : Vec2 α) : Outcome α (Mat2 α) :=
  match source with
  | vertices => .ok (cell.jacobian ξ)
  | stored factors verify => do
    let j ← factors.planar subcell point
    match verify with
    | none => return j
    | some tolerance =>
      if agrees j (cell.jacobian ξ) tolerance then return j
      else .refuse (.jacobianMismatch subcell point)

end JacobianSource

namespace Refinement

variable [Scalar α]

/-- The Jacobians that the options select. -/
def jacobianSource (r : Refinement α) (dim : Dimension) (options : Options α) :
    Outcome α (JacobianSource α) :=
  match dim, options.planarJacobians with
  | .two, .geometricFactors =>
    match r.factors with
    | some factors => do
      .agree .factorDimension 2 factors.dim.value
      .agree .factorSubcells r.subcells factors.subcells
      return .stored factors options.verify
    | none => do return .stored (← r.computeFactors) options.verify
  | _, _ => .ok .vertices

/-- A metric, or the report of the determinant that rules it out. -/
def accept {β : Type} (parent subcell point : Nat) : Except α β → Outcome α β
  | .ok metric => .ok metric
  | .error det => .refuse (.nonPositiveDeterminant parent subcell point det)

def planarTerms (source : JacobianSource α) (cell : Quadrilateral α) (parent subcell : Nat) :
    Outcome α (List (Sym2 α)) :=
  Quadrature.square.zipIdx.mapM fun ((weight, ξ), point) => do
    let j ← source.planar cell subcell point ξ
    accept parent subcell point (Metric.planar j weight)

def solidTerms (cell : Hexahedron α) (parent subcell : Nat) : Outcome α (List (Sym3 α)) :=
  Quadrature.cube.zipIdx.mapM fun ((weight, ξ), point) =>
    accept parent subcell point (Metric.solid (cell.jacobian ξ) weight)

/-- The metric terms of a sub-cell of an element, point by point. -/
def subcellTerms (r : Refinement α) (dim : Dimension) (source : JacobianSource α)
    (parent subcell : Nat) : Outcome α (List α) :=
  match dim with
  | .two => do
    let cell ← r.quadrilateral subcell
    return (← planarTerms source cell parent subcell).flatMap Sym2.toList
  | .three => do
    let cell ← r.hexahedron subcell
    return (← solidTerms cell parent subcell).flatMap Sym3.toList

def slotTerms (r : Refinement α) (dim : Dimension) (source : JacobianSource α)
    (perElement : Nat) (slots : Array Nat) (slot : Nat) : Outcome α (List α) := do
  let subcell ← entryAt slots slot
  r.subcellTerms dim source (slot / perElement) subcell

def allTerms (schedule : Schedule) (r : Refinement α) (dim : Dimension)
    (source : JacobianSource α) (perElement : Nat) (slots : Array Nat) (parallel : Bool) :
    Outcome α (List (List α)) :=
  let tasks := List.range slots.size
  let task := r.slotTerms dim source perElement slots
  if parallel then schedule.leastFailure Failure.isFault task tasks else tasks.mapM task

/-- The metric terms of all sub-cells of elements of the given order. -/
def evaluateMetric (schedule : Schedule) (r : Refinement α) (order elements : Nat)
    (options : Options α) : Journaled (Failure α) (MetricArray α) := do
  let dim ← (Outcome.dimension r.dim : Outcome α Dimension)
  let slots ← r.slots dim order elements
  let source ← r.jacobianSource dim options
  if options.verify.isSome && !source.isStored then
    Journaled.report .warn ("Jacobian verification has no effect for " ++ dim.label ++
      " meshes with Jacobians taken from the vertices")
  Journaled.report .debug ("Evaluating " ++ dim.label ++ " LOR metric terms for " ++
    toString r.subcells ++ " sub-cells (" ++ toString elements ++ " elements of order " ++
    toString order ++ ")")
  let perElement ← dim.subcells order
  discard (MetricArray.storage dim.components dim.vertices perElement elements)
  let terms ← r.allTerms schedule dim source perElement slots options.parallel
  MetricArray.ofEntries dim.components dim.vertices perElement elements terms.flatten.toArray

end Refinement

end LowOrderRefinement
