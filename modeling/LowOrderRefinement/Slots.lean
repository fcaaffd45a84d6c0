import LowOrderRefinement.Refinement

/-! The slots of a refinement. Every element of order `p` has `p ^ d` places for
sub-cells, and the slots are the places of all elements, one element after the
other. A refinement is complete when its embeddings put exactly one sub-cell into
every slot; then the sub-cell of each slot is known. -/

namespace LowOrderRefinement.Refinement

variable {α : Type}

/-- The slot of a place when every element has `perElement` places. -/
def slotOf (perElement : Nat) (e : Embedding) : Nat := e.offset + perElement * e.parent

/-- Puts a sub-cell into its slot, which has to exist and to be free. -/
def occupy (r : Refinement α) (dim : Dimension) (elements perElement : Nat)
    (slots : Array (Option Nat)) (subcell : Nat) : Outcome α (Array (Option Nat)) := do
  r.checkGeometry dim subcell
  let e := r.embedding subcell
  if elements ≤ e.parent then .refuse (.invalidEmbedding subcell .parentOutOfBounds)
  else if perElement ≤ e.offset then .refuse (.invalidEmbedding subcell .offsetOutOfBounds)
  else
    let slot := slotOf perElement e
    match slots.getD slot none with
    | none => return slots.setIfInBounds slot (some subcell)
    | some _ => .refuse (.invalidEmbedding subcell .offsetOccupied)

/-- The sub-cell of every slot. -/
def slots (r : Refinement α) (dim : Dimension) (order elements : Nat) :
    Outcome α (Array Nat) := do
  let perElement ← dim.subcells order
  let total ← Size.mul elements perElement
  .agree .subcells total r.subcells
  let filled ← (List.range r.subcells).foldlM (r.occupy dim elements perElement)
    (Array.replicate total none)
  require (filled.all Option.isSome) .outOfRange
  return filled.map (·.getD 0)

end LowOrderRefinement.Refinement
