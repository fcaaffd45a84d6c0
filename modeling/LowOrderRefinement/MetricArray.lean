import LowOrderRefinement.Layout
import LowOrderRefinement.Scalar

/-! The metric terms of all sub-cells of a refinement in flat storage, addressed by
component, quadrature point, offset of the sub-cell in its element, and element.
All terms of one sub-cell are contiguous, and so are all terms of one element. -/

namespace LowOrderRefinement

-- products have one meaning, whatever is imported
attribute [local instance (1100)] One.ofOfNat1

/-- Metric terms by component, point, sub-cell offset and element, the first fastest. -/
structure MetricArray (α : Type) where
  components : Nat
  points : Nat
  subcells : Nat
  elements : Nat
  layout : Layout
  entries : Array α
  shape_layout : layout.shape = [components, points, subcells, elements]
  size_entries : entries.size = layout.shape.prod

namespace MetricArray

variable {α : Type}

/-- The array with the given entries, which have to be as many as the sizes ask for. -/
def ofEntries (components points subcells elements : Nat) (entries : Array α) :
    Checked (MetricArray α) :=
  let shape := [components, points, subcells, elements]
  if h : Size.productFits shape ∧ entries.size = shape.prod then
    .ok
      { components, points, subcells, elements, entries
        layout := ⟨shape, h.1⟩
        shape_layout := rfl
        size_entries := h.2 }
  else .error .wrongLength

def storage (components points subcells elements : Nat) : Checked Nat := do
  let layout ← Layout.firstIndexFastest [components, points, subcells, elements]
  let length ← layout.length
  Size.reserve length
  return length

def zeros [Scalar α] (components points subcells elements : Nat) : Checked (MetricArray α) := do
  let length ← storage components points subcells elements
  ofEntries components points subcells elements (Array.replicate length 0)

def subcellStride (m : MetricArray α) : Nat := m.components * m.points

def elementStride (m : MetricArray α) : Nat := m.components * m.points * m.subcells

/-- The term at `[component, point, offset, element]`. -/
def get (m : MetricArray α) (index : List Nat) : Checked α := do
  entryAt m.entries (← m.layout.offset index)

def set (m : MetricArray α) (index : List Nat) (value : α) : Checked (MetricArray α) := do
  let place ← m.layout.offset index
  if h : place < m.entries.size then
    return { m with
      entries := m.entries.set place value h
      size_entries := by simp [m.size_entries] }
  else .error .outOfRange

def subcell (m : MetricArray α) (parent offset : Nat) : Checked (Array α) := do
  let start ← m.layout.offset [0, 0, offset, parent]
  slice m.entries start (← Size.add start m.subcellStride)

def element (m : MetricArray α) (parent : Nat) : Checked (Array α) := do
  let start ← Size.mul parent m.elementStride
  let next ← Size.add parent 1
  slice m.entries start (← Size.mul next m.elementStride)

end MetricArray

end LowOrderRefinement
