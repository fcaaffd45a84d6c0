import LowOrderRefinement.Proofs.Errors.Faults
import LowOrderRefinement.Proofs.Stencil.Neighbourhoods
import LowOrderRefinement.Proofs.Assembly.Semidefinite

/-! Which input is accepted. An assembly whose arrays can be stored returns a matrix exactly
when refinement and space fit together, every sub-cell is regular and every element
has the degrees of freedom that it should have; otherwise it reports an error. -/

namespace LowOrderRefinement.Assembly

variable {α : Type} [Scalar α]

/-- An accepted element reads nothing outside of its metric terms, its degrees of freedom and the
ordering. -/
theorem readsInside_of_prepare {schedule : Schedule} {r : Refinement α} {space : Space}
    {options : Options α} {s : Setup α} {m : MetricArray α}
    (h : prepare schedule r space options = .ok (s, m)) {e : Nat} (he : e < space.elements)
    (haccepts : space.Accepts s.nodes e) :
    ∃ terms, m.element e = .ok terms ∧
      Kernel.ReadsInside s.dim space.order terms (space.dofs e) space.ordering := by
  obtain ⟨dim, source, hchecks, rfl, -, heval⟩ := prepare_spec h
  obtain ⟨hread, hterms⟩ := Space.element_eq_of_evaluated hchecks heval he
  have hlimit : space.order < Size.limit := Nat.lt_of_le_of_lt hchecks.order_le (by decide)
  refine ⟨m.terms e, hread, Kernel.readsInside hchecks.order_pos hlimit hterms
    hchecks.size_ordering fun place hplace => ?_⟩
  rw [haccepts.1]
  exact hchecks.ordering_lt place hplace

/-- Input without a defect of any kind leads to a matrix, once no requirement is broken. -/
theorem exists_of_accepted {schedule : Schedule} {r : Refinement α} {space : Space}
    {essential : List Nat} {options : Options α} {dim : Dimension}
    (hfaultless : Outcome.Faultless (assemble schedule r space essential options).result)
    (hconfigured : Configured r space options dim)
    (hregular : ∀ s < r.subcells, r.Regular dim options s)
    (haccepts : ∀ e < space.elements, space.Accepts ((space.order + 1) ^ dim.value) e) :
    ∃ a, (assemble schedule r space essential options).result = .ok a := by
  refine hfaultless.exists_of_reports fun cause hcause => ?_
  have hdefect := reports_assemble schedule r space essential options cause hcause
  cases hkind : cause.kind with
  | configuration => exact hconfigured.kind_ne hdefect hkind
  | geometry =>
    obtain ⟨dim', hdim', s, hs, hs'⟩ := hdefect.exists_not_regular hkind
    obtain rfl := hconfigured.dim_unique hdim'
    exact hs' (hregular s hs)
  | element =>
    obtain ⟨-, e, he, he'⟩ := hdefect.exists_not_accepts hkind
    rw [hconfigured.checks.space_dim] at he'
    exact he' (haccepts e he)

/-- An assembly of complete sub-cells whose arrays can be stored breaks no requirement, and its
kernels read nothing outside of their arrays. It returns a matrix exactly when refinement and space
fit together, every sub-cell is regular, and every element has one degree of freedom for each of
its nodes, all of which exist. -/
theorem assemble_eq_ok_iff (schedule : Schedule) (r : Refinement α) (space : Space)
    (essential : List Nat) (options : Options α) (hcomplete : r.Complete)
    (hstorable : ∀ dim : Dimension, space.dim = dim.value → Storable r space options dim) :
    let result := (assemble schedule r space essential options).result
    Outcome.Faultless result ∧
    (∀ s m, prepare schedule r space options = .ok (s, m) →
      ∀ e < space.elements, space.Accepts s.nodes e →
        ∃ terms, m.element e = .ok terms ∧
          Kernel.ReadsInside s.dim space.order terms (space.dofs e) space.ordering) ∧
    ((∃ a, result = .ok a) ↔
      ∃ dim, Configured r space options dim ∧ (∀ s < r.subcells, r.Regular dim options s) ∧
        ∀ e < space.elements, space.Accepts ((space.order + 1) ^ dim.value) e) := by
  have hfaultless : Outcome.Faultless (assemble schedule r space essential options).result :=
    faultless_assemble schedule essential hcomplete hstorable
  refine ⟨hfaultless, fun s m h e he haccepts => readsInside_of_prepare h he haccepts, ?_, ?_⟩
  · rintro ⟨a, ha⟩
    obtain ⟨dim, source, m, h⟩ := assemble_spec ha
    exact ⟨dim, h.accepted⟩
  · rintro ⟨dim, hconfigured, hregular, haccepts⟩
    exact exists_of_accepted hfaultless hconfigured hregular haccepts

/-- Two squares are accepted with the nodes of their common edge, and not with nodes that do not
exist. -/
theorem assemble_eq_ok_iff_squares :
    twoSquares.Complete ∧
    (∃ dim, Configured twoSquares sharedNodes (Options.standard.withParallel false) dim ∧
      ∀ s < 2, twoSquares.Regular dim (Options.standard.withParallel false) s) ∧
    ∀ a, (assemble .inOrder twoSquares strayNodes []
      (Options.standard.withParallel false)).result ≠ .ok a := by
  have hcomplete : twoSquares.Complete := by
    show ∀ s < 2, (twoSquares.vertices s).length = 8
    decide
  have hstorable (space : Space) (h : space.elements = 2 ∧ space.order = 1 ∧ space.numDofs = 6)
      (dim : Dimension) (hdim : space.dim = dim.value) :
      Storable twoSquares space (Options.standard.withParallel false) dim := by
    obtain ⟨helements, horder, hdofs⟩ := h
    refine ⟨?_, fun _ _ _ => ?_, by rw [hdofs]; decide⟩
    · rw [helements, horder]
      cases dim <;> decide
    · rw [helements, horder]
      cases dim <;> decide
  have hok : (assemble .inOrder twoSquares sharedNodes []
      (Options.standard.withParallel false)).result.isOk = true := by decide +kernel
  obtain ⟨-, -, hshared⟩ := assemble_eq_ok_iff .inOrder twoSquares sharedNodes []
    (Options.standard.withParallel false) hcomplete (hstorable _ ⟨rfl, rfl, rfl⟩)
  obtain ⟨dim, hconfigured, hregular, -⟩ := hshared.mp (exists_of_isOk hok)
  obtain ⟨-, -, hstray⟩ := assemble_eq_ok_iff .inOrder twoSquares strayNodes []
    (Options.standard.withParallel false) hcomplete (hstorable _ ⟨rfl, rfl, rfl⟩)
  refine ⟨hcomplete, ⟨dim, hconfigured, hregular⟩, fun a ha => ?_⟩
  obtain ⟨dim', -, -, haccepts⟩ := hstray.mp ⟨a, ha⟩
  have hlt := (haccepts 0 (by decide)).2 7 (by decide +kernel)
  exact absurd hlt (by decide)

end LowOrderRefinement.Assembly
