import LowOrderRefinement.Proofs.Assembly.Elements

/-! What an assembly asks of its input, and what its errors say about it. A
configuration that is accepted lets every sub-cell be found, and then a sub-cell is
regular when its Jacobians are confirmed and preserve orientation. An error about
the configuration, the geometry or an element stands for a defect of that kind, and
for none of another kind. -/

namespace LowOrderRefinement

variable {α : Type}

/-! ### Jacobians -/

namespace Refinement

variable [Scalar α]

/-- The Jacobian of a planar sub-cell that the options select: the closed form, a stored one, or
the product of the vertex coordinates with the gradients of the shape functions. -/
def planarJacobian (r : Refinement α) (options : Options α) (cell : Quadrilateral α)
    (subcell point : Nat) (ξ : Vec2 α) : Checked (Mat2 α) :=
  match options.planarJacobians, r.factors with
  | .vertices, _ => .ok (cell.jacobian ξ)
  | .geometricFactors, some factors => factors.planar subcell point
  | .geometricFactors, none => .ok (cell.jacobianOfGradients ξ)

/-- Whether a Jacobian is close enough to the closed form, when the options ask for that. -/
def confirms (options : Options α) (j closedForm : Mat2 α) : Bool :=
  match options.planarJacobians, options.verify with
  | .geometricFactors, some tolerance => JacobianSource.agrees j closedForm tolerance
  | _, _ => true

theorem confirms_of_verify {options : Options α} (h : options.verify = none)
    (j closedForm : Mat2 α) : confirms options j closedForm = true := by
  unfold confirms
  rw [h]
  split
  next hsome => cases hsome
  next => rfl

/-- At every quadrature point of a sub-cell the Jacobian is confirmed, if it has to be, and its
determinant is positive. -/
def Regular (r : Refinement α) (dim : Dimension) (options : Options α) (subcell : Nat) : Prop :=
  match dim with
  | .two => ∃ cell, r.quadrilateral subcell = .ok cell ∧
      ∀ (point : Nat) (weight : α) (ξ : Vec2 α), Quadrature.square[point]? = some (weight, ξ) →
        ∃ j, r.planarJacobian options cell subcell point ξ = .ok j ∧
          confirms options j (cell.jacobian ξ) = true ∧ Scalar.isPos j.det = true
  | .three => ∃ cell, r.hexahedron subcell = .ok cell ∧
      ∀ (point : Nat) (weight : α) (ξ : Vec3 α), Quadrature.cube[point]? = some (weight, ξ) →
        Scalar.isPos (Metric.solidDet (cell.jacobian ξ)) = true

end Refinement

/-! ### Requirements -/

namespace Assembly

/-- A refinement and a space that number the same sub-cells and nodes. -/
structure Aligned (r : Refinement α) (space : Space) (dim : Dimension) : Prop where
  space_dim : space.dim = dim.value
  refinement_dim : r.dim = dim.value
  ordering_perm : space.ordering.toList.Perm (List.range ((space.order + 1) ^ dim.value))
  covers : r.Covers dim space.elements (space.order ^ dim.value)

/-- A refinement and a space that fit together. -/
structure Configured (r : Refinement α) (space : Space) (options : Options α) (dim : Dimension) :
    Prop where
  checks : Checks r space dim
  subcells_eq : r.subcells = space.elements * space.order ^ dim.value
  covers : r.Covers dim space.elements (space.order ^ dim.value)
  factors_fit : dim = .two → options.planarJacobians = .geometricFactors →
    ∀ factors, r.factors = some factors → factors.dim = .two ∧ factors.subcells = r.subcells

/-- All arrays of an assembly can be stored: the metric terms, the Jacobians that are computed
first if need be, and the rows of the matrix. -/
structure Storable (r : Refinement α) (space : Space) (options : Options α) (dim : Dimension) :
    Prop where
  terms_le : dim.components * dim.vertices * (space.elements * space.order ^ dim.value) ≤
    Size.maxEntries
  jacobians_le : dim = .two → options.planarJacobians = .geometricFactors → r.factors = none →
    16 * (space.elements * space.order ^ dim.value) ≤ Size.maxEntries
  rows_le : space.numDofs + 1 ≤ Size.maxEntries

def Evaluable [Scalar α] (r : Refinement α) (space : Space) (options : Options α) : Prop :=
  ∃ dim, Configured r space options dim ∧ ∀ s < r.subcells, r.Regular dim options s

/-! ### Defects -/

/-- The defect of the places of sub-cells that an error names. -/
def EmbeddingDefective (r : Refinement α) (space : Space) (subcell : Nat) :
    EmbeddingDefect → Prop
  | .parentOutOfBounds => space.elements ≤ (r.embedding subcell).parent
  | .offsetOutOfBounds => space.order ^ r.dim ≤ (r.embedding subcell).offset
  | .offsetOccupied => ∃ s < subcell, r.embedding s = r.embedding subcell
  | .other _ => False

/-- The two sizes that a mismatch names are those that have to agree. -/
def Disagree [Scalar α] (r : Refinement α) (space : Space) (options : Options α)
    (expected actual : Nat) : Quantity → Prop
  | .refinementDimension => expected = space.dim ∧ actual = r.dim
  | .orderingLength => expected = (space.order + 1) ^ space.dim ∧ actual = space.ordering.size
  | .subcells => expected = space.elements * space.order ^ r.dim ∧ actual = r.subcells
  | .factorDimension => options.planarJacobians = .geometricFactors ∧ r.dim = 2 ∧ expected = 2 ∧
      ∃ factors, r.factors = some factors ∧ actual = factors.dim.value
  | .factorSubcells => options.planarJacobians = .geometricFactors ∧ r.dim = 2 ∧
      expected = r.subcells ∧ ∃ factors, r.factors = some factors ∧ actual = factors.subcells
  | .elementDofs => Evaluable r space options ∧ expected = (space.order + 1) ^ space.dim ∧
      ∃ e < space.elements, actual = (space.dofs e).size
  | .jacobianEntries | .other _ => False

/-- The defect of the input that an error stands for. Errors about the geometry are reported for
accepted configurations only, and errors about elements only when all sub-cells are regular. -/
def Defect [Scalar α] (r : Refinement α) (space : Space) (options : Options α) : Error α → Prop
  | .unsupportedBasis => space.basis ≠ .nodalTensor
  | .unsupportedOrder order => order = space.order ∧ (order = 0 ∨ maxOrder < order)
  | .unsupportedDimension dim => dim = space.dim ∧ ∀ d : Dimension, dim ≠ d.value
  | .unsupportedGeometry s => s < r.subcells ∧
      ∀ dim : Dimension, r.dim = dim.value → (r.geometry s).fits dim = false
  | .invalidEmbedding s defect => s < r.subcells ∧ EmbeddingDefective r space s defect
  | .mismatch quantity expected actual =>
      expected ≠ actual ∧ Disagree r space options expected actual quantity
  | .nonPositiveDeterminant parent s _ _ => parent = (r.embedding s).parent ∧ s < r.subcells ∧
      ∃ dim, Configured r space options dim ∧ ¬r.Regular dim options s
  | .jacobianMismatch s _ => s < r.subcells ∧
      ∃ dim, Configured r space options dim ∧ ¬r.Regular dim options s
  | .dofOutOfBounds e dof numDofs => Evaluable r space options ∧ e < space.elements ∧
      dof ∈ space.dofs e ∧ numDofs = space.numDofs ∧ numDofs ≤ dof
  | .invalidOrdering _ =>
      ¬space.ordering.toList.Perm (List.range ((space.order + 1) ^ space.dim))

end Assembly

/-- What an error is about. -/
inductive Error.Kind
  | configuration
  | geometry
  | element
deriving DecidableEq

/-- Errors about a sub-cell at a quadrature point are about the geometry, those about the degrees
of freedom of one element about the element, and all others about the configuration. -/
def Error.kind : Error α → Error.Kind
  | .nonPositiveDeterminant .. | .jacobianMismatch .. => .geometry
  | .mismatch .elementDofs .. | .dofOutOfBounds .. => .element
  | _ => .configuration

/-- Whether an error is about the numbers of sub-cells and nodes on which a refinement and a space
have to agree. -/
def Error.isNumbering : Error α → Bool
  | .unsupportedDimension _ | .unsupportedGeometry _ | .invalidEmbedding .. | .invalidOrdering _ =>
    true
  | .mismatch quantity .. =>
    quantity ∉ [Quantity.factorDimension, Quantity.factorSubcells, Quantity.elementDofs]
  | _ => false

namespace Assembly

variable {r : Refinement α} {space : Space} {options : Options α} {dim : Dimension}

theorem Configured.aligned (h : Configured r space options dim) : Aligned r space dim where
  space_dim := h.checks.space_dim
  refinement_dim := h.checks.refinement_dim
  ordering_perm := h.checks.ordering_perm
  covers := h.covers

theorem Configured.dim_unique {dim' : Dimension} (h : Configured r space options dim)
    (h' : Configured r space options dim') : dim = dim' :=
  Dimension.eq_of_value_eq (h.checks.space_dim.symm.trans h'.checks.space_dim)

theorem Aligned.not_embeddingDefective (h : Aligned r space dim) {s : Nat}
    (hs : s < r.subcells) (defect : EmbeddingDefect) : ¬EmbeddingDefective r space s defect := by
  intro hdefect
  have hplaced := h.covers.placed s hs
  cases defect with
  | parentOutOfBounds => exact absurd hplaced.parent_lt (Nat.not_lt.mpr hdefect)
  | offsetOutOfBounds =>
    rw [EmbeddingDefective, h.refinement_dim] at hdefect
    exact absurd hplaced.offset_lt (Nat.not_lt.mpr hdefect)
  | offsetOccupied =>
    obtain ⟨t, ht, heq⟩ := hdefect
    have := h.covers.embedding_inj t (Nat.lt_trans ht hs) s hs heq
    omega
  | other reason => exact hdefect

variable [Scalar α] {cause : Error α}

theorem Aligned.eq_of_disagree (h : Aligned r space dim) {expected actual : Nat}
    {quantity : Quantity}
    (hquantity : quantity ∉ [Quantity.factorDimension, Quantity.factorSubcells,
      Quantity.elementDofs])
    (hsizes : Disagree r space options expected actual quantity) : expected = actual := by
  cases quantity with
  | refinementDimension => rw [hsizes.1, hsizes.2, h.space_dim, h.refinement_dim]
  | orderingLength =>
    have hlength := h.ordering_perm.length_eq
    rw [Array.length_toList, List.length_range] at hlength
    rw [hsizes.1, hsizes.2, h.space_dim, hlength]
  | subcells => rw [hsizes.1, hsizes.2, h.refinement_dim, h.covers.subcells_eq]
  | factorDimension | factorSubcells | elementDofs => simp at hquantity
  | jacobianEntries => exact hsizes.elim
  | other name => exact hsizes.elim

/-- Where the numbers of sub-cells and nodes agree, no error is about them. -/
theorem Aligned.isNumbering_eq_false (h : Aligned r space dim)
    (hdefect : Defect r space options cause) : cause.isNumbering = false := by
  cases cause with
  | unsupportedDimension d => exact absurd (hdefect.1.trans h.space_dim) (hdefect.2 dim)
  | unsupportedGeometry s =>
    have hfits := (h.covers.placed s hdefect.1).fits
    rw [hdefect.2 dim h.refinement_dim] at hfits
    cases hfits
  | invalidEmbedding s defect => exact absurd hdefect.2 (h.not_embeddingDefective hdefect.1 defect)
  | mismatch quantity expected actual =>
    refine decide_eq_false fun hquantity => ?_
    exact hdefect.1 (h.eq_of_disagree hquantity hdefect.2)
  | invalidOrdering index =>
    rw [Defect, h.space_dim] at hdefect
    exact absurd h.ordering_perm hdefect
  | _ => rfl

/-- An accepted configuration has no defect of its own. -/
theorem Configured.kind_ne (h : Configured r space options dim)
    (hdefect : Defect r space options cause) : cause.kind ≠ .configuration := by
  intro hkind
  have hnumbering := h.aligned.isNumbering_eq_false hdefect
  have hfactors (hplanar : options.planarJacobians = .geometricFactors) (hdim : r.dim = 2)
      (factors : GeometricFactors α) (hfactors : r.factors = some factors) :
      factors.dim = .two ∧ factors.subcells = r.subcells :=
    h.factors_fit (Dimension.eq_of_value_eq (h.checks.refinement_dim.symm.trans hdim)) hplanar
      factors hfactors
  cases cause with
  | unsupportedBasis => exact absurd h.checks.basis_eq hdefect
  | unsupportedOrder order =>
    obtain ⟨rfl, horder⟩ := hdefect
    have := h.checks.order_pos
    have := h.checks.order_le
    omega
  | mismatch quantity expected actual =>
    obtain ⟨hne, hsizes⟩ := hdefect
    cases quantity with
    | factorDimension =>
      obtain ⟨hplanar, hdim, rfl, factors, hsome, rfl⟩ := hsizes
      rw [(hfactors hplanar hdim factors hsome).1] at hne
      exact hne rfl
    | factorSubcells =>
      obtain ⟨hplanar, hdim, rfl, factors, hsome, rfl⟩ := hsizes
      exact hne (hfactors hplanar hdim factors hsome).2.symm
    | elementDofs => cases hkind
    | _ => simp [Error.isNumbering] at hnumbering
  | nonPositiveDeterminant | jacobianMismatch | dofOutOfBounds => cases hkind
  | _ => cases hnumbering

/-- An error about the geometry stands for a sub-cell of an accepted configuration that is not
regular. -/
theorem Defect.exists_not_regular (h : Defect r space options cause)
    (hkind : cause.kind = .geometry) :
    ∃ dim, Configured r space options dim ∧ ∃ s < r.subcells, ¬r.Regular dim options s := by
  cases cause with
  | nonPositiveDeterminant parent s point det =>
    obtain ⟨-, hs, dim, hdim, hregular⟩ := h
    exact ⟨dim, hdim, s, hs, hregular⟩
  | jacobianMismatch s point =>
    obtain ⟨hs, dim, hdim, hregular⟩ := h
    exact ⟨dim, hdim, s, hs, hregular⟩
  | mismatch quantity => cases quantity <;> cases hkind
  | _ => cases hkind

/-- An error about an element stands for an element that is not accepted, when the geometry is. -/
theorem Defect.exists_not_accepts (h : Defect r space options cause)
    (hkind : cause.kind = .element) :
    Evaluable r space options ∧
      ∃ e < space.elements, ¬space.Accepts ((space.order + 1) ^ space.dim) e := by
  cases cause with
  | mismatch quantity expected actual =>
    cases quantity with
    | elementDofs =>
      obtain ⟨hne, hevaluable, rfl, e, he, rfl⟩ := h
      exact ⟨hevaluable, e, he, fun haccepts => hne haccepts.1.symm⟩
    | _ => cases hkind
  | dofOutOfBounds e dof numDofs =>
    obtain ⟨hevaluable, he, hdof, rfl, hle⟩ := h
    exact ⟨hevaluable, e, he, fun haccepts => Nat.not_lt.mpr hle (haccepts.2 dof hdof)⟩
  | _ => cases hkind

end Assembly

end LowOrderRefinement
