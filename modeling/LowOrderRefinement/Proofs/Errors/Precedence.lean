import LowOrderRefinement.Proofs.Errors.Faults

/-! Which error is reported when the input has several defects. Errors about the
configuration come before errors about the geometry, and these before errors about
the degrees of freedom of an element. The number of degrees of freedom of an
element is compared with the order only when the element is visited; so a cell
that is folded over hides an element of the wrong size. -/

namespace LowOrderRefinement.Assembly

variable {α : Type} [Scalar α]

section Kinds

variable {r : Refinement α} {space : Space} {options : Options α} {dim : Dimension}
  {cause : Error α}

/-- A refinement and a space that do not fit together have a defect of the configuration only. -/
theorem Defect.kind_eq_configuration (hdefect : Defect r space options cause)
    (h : ∀ dim, ¬Configured r space options dim) : cause.kind = .configuration := by
  cases hkind : cause.kind with
  | configuration => rfl
  | geometry =>
    obtain ⟨dim, hdim, -⟩ := hdefect.exists_not_regular hkind
    exact absurd hdim (h dim)
  | element =>
    obtain ⟨⟨dim, hdim, -⟩, -⟩ := hdefect.exists_not_accepts hkind
    exact absurd hdim (h dim)

/-- With a sub-cell that is not regular, what is reported is the geometry, whatever the elements
are. -/
theorem Defect.kind_eq_geometry (hdefect : Defect r space options cause)
    (hconfigured : Configured r space options dim)
    (h : ∃ s < r.subcells, ¬r.Regular dim options s) : cause.kind = .geometry := by
  obtain ⟨s, hs, hregular⟩ := h
  cases hkind : cause.kind with
  | configuration => exact absurd hkind (hconfigured.kind_ne hdefect)
  | geometry => rfl
  | element =>
    obtain ⟨⟨dim', hdim', hall⟩, -⟩ := hdefect.exists_not_accepts hkind
    obtain rfl := hconfigured.dim_unique hdim'
    exact absurd (hall s hs) hregular

/-- When all sub-cells are regular, only elements are left to be reported. -/
theorem Defect.kind_eq_element (hdefect : Defect r space options cause)
    (h : Evaluable r space options) : cause.kind = .element := by
  obtain ⟨dim, hconfigured, hall⟩ := h
  cases hkind : cause.kind with
  | configuration => exact absurd hkind (hconfigured.kind_ne hdefect)
  | geometry =>
    obtain ⟨dim', hdim', s, hs, hregular⟩ := hdefect.exists_not_regular hkind
    obtain rfl := hconfigured.dim_unique hdim'
    exact absurd (hall s hs) hregular
  | element => rfl

theorem evaluable_of_assemble {schedule : Schedule} {essential : List Nat} {a : Csr α}
    (h : (assemble schedule r space essential options).result = .ok a) :
    Evaluable r space options := by
  obtain ⟨dim, source, m, h⟩ := assemble_spec h
  exact ⟨dim, h.accepted.1, h.accepted.2.1⟩

end Kinds

/-- Errors are reported by kind. Without a refinement and a space that fit together there is no
matrix, and what is reported is about the configuration. With them and with a sub-cell that is not
regular there is no matrix either, and what is reported is about the geometry, even if elements have
the wrong number of degrees of freedom. Errors about elements are left when all sub-cells are
regular. No requirement is broken when the sub-cells are complete and the arrays can be stored. -/
theorem assemble_precedence (schedule : Schedule) (r : Refinement α) (space : Space)
    (essential : List Nat) (options : Options α) :
    let result := (assemble schedule r space essential options).result
    ((∀ dim, ¬Configured r space options dim) → (∀ a, result ≠ .ok a) ∧
      Outcome.Reports (fun cause => cause.kind = .configuration) result) ∧
    (∀ dim, Configured r space options dim → (∃ s < r.subcells, ¬r.Regular dim options s) →
      (∀ a, result ≠ .ok a) ∧ Outcome.Reports (fun cause => cause.kind = .geometry) result) ∧
    (Evaluable r space options →
      Outcome.Reports (fun cause => cause.kind = .element) result) ∧
    (r.Complete → (∀ dim : Dimension, space.dim = dim.value → Storable r space options dim) →
      Outcome.Faultless result) := by
  intro result
  have hreports : Outcome.Reports (Defect r space options) result :=
    reports_assemble schedule r space essential options
  refine ⟨fun h => ⟨fun a ha => ?_, ?_⟩, fun dim hdim h => ⟨fun a ha => ?_, ?_⟩,
    fun h => ?_, faultless_assemble schedule essential⟩
  · obtain ⟨dim, hdim, -⟩ := evaluable_of_assemble ha
    exact h dim hdim
  · exact hreports.imp fun cause hdefect => hdefect.kind_eq_configuration h
  · obtain ⟨dim', hdim', hall⟩ := evaluable_of_assemble ha
    obtain rfl := hdim.dim_unique hdim'
    obtain ⟨s, hs, hregular⟩ := h
    exact hregular (hall s hs)
  · exact hreports.imp fun cause hdefect => hdefect.kind_eq_geometry hdim h
  · exact hreports.imp fun cause hdefect => hdefect.kind_eq_element h

/-- A square whose vertices are listed clockwise. -/
def foldedSquare : Refinement ℚ :=
  .ofTable 2 #[⟨.quadrilateral, ⟨0, 0⟩, [0, 0, 0, 1, 1, 1, 1, 0]⟩] none

/-- A space over one square whose element has three degrees of freedom instead of four. -/
def missingNode : Space := .ofTable 2 .nodalTensor 1 4 #[#[0, 1, 2]] #[0, 1, 2, 3]

def closedForm : Options ℚ := ⟨false, .vertices, none⟩

theorem configured_foldedSquare : Configured foldedSquare missingNode closedForm .two where
  checks :=
    { basis_eq := rfl
      space_dim := rfl
      refinement_dim := rfl
      order_pos := Nat.one_pos
      order_le := by decide
      ordering_perm := .refl _ }
  subcells_eq := rfl
  covers :=
    { placed := fun s hs => by
        obtain rfl : s = 0 := Nat.lt_one_iff.mp hs
        exact ⟨rfl, Nat.one_pos, Nat.one_pos⟩
      embedding_inj := fun s hs t ht _ => by
        rw [Nat.lt_one_iff.mp hs, Nat.lt_one_iff.mp ht]
      exists_embedding := fun parent hparent offset hoffset => by
        obtain rfl : parent = 0 := Nat.lt_one_iff.mp hparent
        obtain rfl : offset = 0 := Nat.lt_one_iff.mp hoffset
        exact ⟨0, Nat.one_pos, rfl⟩ }
  factors_fit := fun _ h => by cases h

/-- The folded square is reported although its element has the wrong size. -/
theorem assemble_precedence_foldedSquare :
    Configured foldedSquare missingNode closedForm .two ∧
    (∃ s < 1, ¬foldedSquare.Regular .two closedForm s) ∧
    (∀ a, (assemble .inOrder foldedSquare missingNode [] closedForm).result ≠ .ok a) ∧
    Outcome.Reports (fun cause => cause.kind = .geometry)
      (assemble .inOrder foldedSquare missingNode [] closedForm).result := by
  have hregular : ∃ s < 1, ¬foldedSquare.Regular .two closedForm s := by
    refine ⟨0, Nat.one_pos, fun h => ?_⟩
    have hexists : ∃ terms, foldedSquare.subcellTerms .two .vertices 0 0 = .ok terms :=
      (Refinement.exists_subcellTerms rfl rfl Nat.one_pos 0).mpr h
    obtain ⟨terms, hterms⟩ := hexists
    have hnone : (foldedSquare.subcellTerms .two .vertices 0 0).isOk = false := by decide +kernel
    rw [hterms] at hnone
    cases hnone
  obtain ⟨-, hgeometry, -⟩ := assemble_precedence .inOrder foldedSquare missingNode [] closedForm
  exact ⟨configured_foldedSquare, hregular, hgeometry .two configured_foldedSquare hregular⟩

/-- An element of the wrong size does not keep the determinant of a sub-cell from being
reported. -/
theorem assemble_missingNode :
    (missingNode.dofs 0).size ≠ (missingNode.order + 1) ^ missingNode.dim ∧
    (assemble .inOrder foldedSquare missingNode [] closedForm).result =
      .error (.error (.nonPositiveDeterminant 0 0 0 (-1))) := by
  have hreport : (match (assemble .inOrder foldedSquare missingNode [] closedForm).result with
      | .error e => decide (e = .error (.nonPositiveDeterminant 0 0 0 (-1)))
      | .ok _ => false) = true := by decide +kernel
  refine ⟨by decide, ?_⟩
  split at hreport
  next e he => rw [he, of_decide_eq_true hreport]
  next => cases hreport

end LowOrderRefinement.Assembly
