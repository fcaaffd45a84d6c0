import Mathlib.Data.List.Nodup
import Mathlib.Logic.Equiv.Basic
import LowOrderRefinement.Proofs.Errors.Admissible

/-! Renumbering of sub-cells. A sub-cell brings its geometry, its place, its vertices and
its stored Jacobians along when it gets another number. The metric terms that follow
from these are the same, and they are kept at the place of the sub-cell in its element,
not at its number; so an evaluation leaves no trace of the numbers behind. -/

namespace LowOrderRefinement

variable {α : Type}

/-! ### Permutations of initial numbers -/

/-- A permutation of all numbers that permutes those below `n`. Every permutation of the numbers
below `n` is part of such a one. -/
def Permutes (π : Equiv.Perm Nat) (n : Nat) : Prop := ∀ i, π i < n ↔ i < n

namespace Permutes

variable {π : Equiv.Perm Nat} {n : Nat}

theorem symm_lt (h : Permutes π n) {i : Nat} (hi : i < n) : π.symm i < n :=
  (h _).mp (by rwa [Equiv.apply_symm_apply])

theorem perm_map_range (h : Permutes π n) : ((List.range n).map π).Perm (List.range n) := by
  rw [List.perm_ext_iff_of_nodup (List.nodup_range.map π.injective) List.nodup_range]
  intro i
  rw [List.mem_map, List.mem_range]
  constructor
  · rintro ⟨j, hj, rfl⟩
    exact (h j).mpr (List.mem_range.mp hj)
  · intro hi
    exact ⟨π.symm i, List.mem_range.mpr (h.symm_lt hi), π.apply_symm_apply i⟩

theorem swap {x y : Nat} (hx : x < n) (hy : y < n) : Permutes (Equiv.swap x y) n := by
  intro i
  rw [Equiv.swap_apply_def]
  split
  next h => exact iff_of_true hy (h ▸ hx)
  next =>
    split
    next h => exact iff_of_true hx (h ▸ hy)
    next => rfl

end Permutes

/-! ### Renumbered refinements -/

/-- Stored Jacobians with other numbers for the sub-cells of a mesh of `n` of them. -/
structure GeometricFactors.Renumbered (τ : Equiv.Perm Nat) (n : Nat)
    (f f' : GeometricFactors α) : Prop where
  dim_eq : f'.dim = f.dim
  subcells_eq : f'.subcells = f.subcells
  entry_eq : f.subcells = n → ∀ s < n, ∀ point < f.points, ∀ row < f.dim.value,
    ∀ column < f.dim.value, f'.entry (τ s) point row column = f.entry s point row column

/-- A refinement with other numbers for its sub-cells: `τ s` is the new number of `s`. -/
structure Refinement.Renumbered (τ : Equiv.Perm Nat) (r r' : Refinement α) : Prop where
  permutes : Permutes τ r.subcells
  dim_eq : r'.dim = r.dim
  subcells_eq : r'.subcells = r.subcells
  geometry_eq : ∀ s < r.subcells, r'.geometry (τ s) = r.geometry s
  embedding_eq : ∀ s < r.subcells, r'.embedding (τ s) = r.embedding s
  vertices_eq : ∀ s < r.subcells, r'.vertices (τ s) = r.vertices s
  factors_rel : Option.Rel (GeometricFactors.Renumbered τ r.subcells) r.factors r'.factors

theorem GeometricFactors.Renumbered.planar_eq {τ : Equiv.Perm Nat} {n : Nat}
    {f f' : GeometricFactors α} (h : Renumbered τ n f f') (hn : f.subcells = n) {s : Nat}
    (hs : s < n) {point : Nat} (hpoint : point < 4) :
    f'.planar (τ s) point = f.planar s point := by
  have hentry := h.entry_eq hn s hs point
  rw [planar, planar, h.dim_eq]
  cases hdim : f.dim with
  | two =>
    rw [points, hdim] at hentry
    have hentry := hentry hpoint
    simp only [hentry 0 (by decide) 0 (by decide), hentry 0 (by decide) 1 (by decide),
      hentry 1 (by decide) 0 (by decide), hentry 1 (by decide) 1 (by decide)]
  | three => rfl

namespace Refinement

variable {τ : Equiv.Perm Nat} {r r' : Refinement α}

namespace Renumbered

theorem exists_eq (h : r.Renumbered τ r') {s' : Nat} (hs' : s' < r'.subcells) :
    ∃ s < r.subcells, τ s = s' := by
  rw [h.subcells_eq] at hs'
  exact ⟨τ.symm s', h.permutes.symm_lt hs', τ.apply_symm_apply s'⟩

theorem lt (h : r.Renumbered τ r') {s : Nat} (hs : s < r.subcells) : τ s < r'.subcells := by
  rw [h.subcells_eq]
  exact (h.permutes s).mpr hs

theorem exists_factors (h : r.Renumbered τ r') {f' : GeometricFactors α}
    (hf' : r'.factors = some f') :
    ∃ f, r.factors = some f ∧ f.Renumbered τ r.subcells f' := by
  match hf : r.factors, r'.factors, hf', h.factors_rel with
  | some f, _, rfl, .some hrel => exact ⟨f, rfl, hrel⟩

theorem factors_eq_none (h : r.Renumbered τ r') (hnone : r'.factors = none) :
    r.factors = none := by
  match hf : r.factors, r'.factors, hnone, h.factors_rel with
  | none, _, rfl, .none => rfl

theorem covers (h : r.Renumbered τ r') {dim : Dimension} {elements perElement : Nat}
    (hcovers : r.Covers dim elements perElement) : r'.Covers dim elements perElement where
  placed s' hs' := by
    obtain ⟨s, hs, rfl⟩ := h.exists_eq hs'
    have hplaced := hcovers.placed s hs
    refine ⟨?_, ?_, ?_⟩
    · rw [h.geometry_eq s hs]
      exact hplaced.fits
    · rw [h.embedding_eq s hs]
      exact hplaced.parent_lt
    · rw [h.embedding_eq s hs]
      exact hplaced.offset_lt
  embedding_inj s' hs' t' ht' heq := by
    obtain ⟨s, hs, rfl⟩ := h.exists_eq hs'
    obtain ⟨t, ht, rfl⟩ := h.exists_eq ht'
    rw [h.embedding_eq s hs, h.embedding_eq t ht] at heq
    rw [hcovers.embedding_inj s hs t ht heq]
  exists_embedding parent hparent offset hoffset := by
    obtain ⟨s, hs, heq⟩ := hcovers.exists_embedding parent hparent offset hoffset
    exact ⟨τ s, h.lt hs, (h.embedding_eq s hs).trans heq⟩

variable [Scalar α] {dim : Dimension} {options : Options α}

/-- The Jacobian that the options select moves with its sub-cell, when there are stored ones for
all sub-cells. -/
theorem planarJacobian_eq (h : r.Renumbered τ r')
    (hfit : options.planarJacobians = .geometricFactors →
      ∀ f, r.factors = some f → f.subcells = r.subcells)
    {s : Nat} (hs : s < r.subcells) (cell : Quadrilateral α) {point : Nat} (hpoint : point < 4)
    (ξ : Vec2 α) :
    r'.planarJacobian options cell (τ s) point ξ = r.planarJacobian options cell s point ξ := by
  unfold planarJacobian
  cases hplanar : options.planarJacobians with
  | vertices => rfl
  | geometricFactors =>
    match hf : r.factors, hf' : r'.factors, h.factors_rel with
    | none, none, .none => rfl
    | some f, some f', .some hrel => exact hrel.planar_eq (hfit hplanar f hf) hs hpoint

theorem regular (h : r.Renumbered τ r')
    (hfit : dim = .two → options.planarJacobians = .geometricFactors →
      ∀ f, r.factors = some f → f.subcells = r.subcells)
    {s : Nat} (hs : s < r.subcells) (hregular : r.Regular dim options s) :
    r'.Regular dim options (τ s) := by
  cases dim with
  | two =>
    obtain ⟨cell, hcell, hpoints⟩ := hregular
    have hcell' : r'.quadrilateral (τ s) = .ok cell :=
      (congrArg Quadrilateral.ofCoordinates (h.vertices_eq s hs)).trans hcell
    refine ⟨cell, hcell', fun point weight ξ hpoint => ?_⟩
    rw [h.planarJacobian_eq (hfit rfl) hs cell (List.getElem?_eq_some_iff.mp hpoint).1]
    exact hpoints point weight ξ hpoint
  | three =>
    obtain ⟨cell, hcell, hpoints⟩ := hregular
    exact ⟨cell, (congrArg Hexahedron.ofCoordinates (h.vertices_eq s hs)).trans hcell, hpoints⟩

/-- The metric terms of a sub-cell move with it. -/
theorem subcellTerms_eq_ok (h : r.Renumbered τ r') (hr : r.dim = dim.value)
    (hfit : dim = .two → options.planarJacobians = .geometricFactors →
      ∀ f, r.factors = some f → f.subcells = r.subcells)
    {source source' : JacobianSource α} (hsource : r.jacobianSource dim options = .ok source)
    (hsource' : r'.jacobianSource dim options = .ok source') {s : Nat} (hs : s < r.subcells)
    {parent : Nat} {terms : List α} (hterms : r.subcellTerms dim source parent s = .ok terms) :
    r'.subcellTerms dim source' parent (τ s) = .ok terms := by
  cases dim with
  | two =>
    simp only [subcellTerms, bind_eq_ok, lift_eq_ok, pure_eq_ok] at hterms ⊢
    obtain ⟨cell, hcell, metrics, hmetrics, rfl⟩ := hterms
    have hcell' : r'.quadrilateral (τ s) = .ok cell :=
      (congrArg Quadrilateral.ofCoordinates (h.vertices_eq s hs)).trans hcell
    refine ⟨cell, hcell', metrics, mapM_eq_ok_of_imp hmetrics fun x hx m hm => ?_, rfl⟩
    have hpoint : Quadrature.square[x.2]? = some (x.1.1, x.1.2) :=
      List.mem_zipIdx_iff_getElem?.mp hx
    obtain ⟨j, hj, hm⟩ := bind_eq_ok.mp hm
    refine bind_eq_ok.mpr ⟨j, ?_, accept_eq_ok.mpr (accept_eq_ok.mp hm)⟩
    rw [planar_eq_ok hsource' (h.dim_eq.trans hr) (h.lt hs) hcell' hpoint,
      h.planarJacobian_eq (hfit rfl) hs cell (List.getElem?_eq_some_iff.mp hpoint).1]
    exact (planar_eq_ok hsource hr hs hcell hpoint).mp hj
  | three =>
    simp only [subcellTerms, bind_eq_ok, lift_eq_ok, pure_eq_ok] at hterms ⊢
    obtain ⟨cell, hcell, metrics, hmetrics, rfl⟩ := hterms
    have hcell' : r'.hexahedron (τ s) = .ok cell :=
      (congrArg Hexahedron.ofCoordinates (h.vertices_eq s hs)).trans hcell
    refine ⟨cell, hcell', metrics, mapM_eq_ok_of_imp hmetrics fun x hx m hm => ?_, rfl⟩
    exact accept_eq_ok.mpr (accept_eq_ok.mp hm)

end Renumbered

/-! ### Evaluated terms -/

/-- Evaluations that give the sub-cells at every place the same terms hold the same terms for
every element. -/
theorem Evaluated.terms_eq [Scalar α] {dim : Dimension} {order elements : Nat}
    {source source' : JacobianSource α} {m m' : MetricArray α}
    (h : r.Evaluated dim order elements source m)
    (h' : r'.Evaluated dim order elements source' m')
    (hplaces : ∀ s < r.subcells, ∃ s' < r'.subcells, r'.embedding s' = r.embedding s ∧
      ∀ parent terms, r.subcellTerms dim source parent s = .ok terms →
        r'.subcellTerms dim source' parent s' = .ok terms)
    {e : Nat} (he : e < elements) : m'.terms e = m.terms e := by
  have hn : 0 < dim.components * dim.vertices := by cases dim <;> decide
  have hstride : m.elementStride = order ^ dim.value * (dim.components * dim.vertices) := by
    rw [MetricArray.elementStride, h.components_eq, h.points_eq, h.subcells_eq, Nat.mul_comm]
  have hstride' : m'.elementStride = order ^ dim.value * (dim.components * dim.vertices) := by
    rw [MetricArray.elementStride, h'.components_eq, h'.points_eq, h'.subcells_eq, Nat.mul_comm]
  have hsize := (m.size_terms (h.elements_eq ▸ he)).trans hstride
  have hsize' := (m'.size_terms (h'.elements_eq ▸ he)).trans hstride'
  apply Array.ext_getElem?
  intro i
  by_cases hi : i < order ^ dim.value * (dim.components * dim.vertices)
  · -- the term belongs to the sub-cell at some place, under both numberings
    have hoffset : i / (dim.components * dim.vertices) < order ^ dim.value :=
      (Nat.div_lt_iff_lt_mul hn).mpr hi
    obtain ⟨s, hs, hembedding⟩ := h.covers.exists_embedding e he _ hoffset
    obtain ⟨s', hs', hembedding', hterms⟩ := hplaces s hs
    obtain ⟨terms, hcell, hstored⟩ := h.stored s hs
    obtain ⟨terms', hcell', hstored'⟩ := h'.stored s' hs'
    rw [hembedding', hterms _ _ hcell, Except.ok.injEq] at hcell'
    subst hcell'
    have hlt := Nat.mod_lt i hn
    have hat := hstored _ hlt
    have hat' := hstored' _ hlt
    rw [hembedding, Nat.div_add_mod'] at hat
    rw [hembedding', hembedding, Nat.div_add_mod'] at hat'
    rw [hat, hat']
  · rw [Array.getElem?_eq_none (by omega), Array.getElem?_eq_none (by omega)]

end Refinement

/-! ### Assemblies -/

namespace Assembly

variable [Scalar α] {τ : Equiv.Perm Nat} {r r' : Refinement α} {space : Space}
  {options : Options α} {dim : Dimension}

/-- The numbers of sub-cells do not matter to what an assembly asks for. -/
theorem Admissible.of_renumbered (h : Admissible r space options dim)
    (hr : r.Renumbered τ r') : Admissible r' space options dim where
  configured :=
    { checks := { h.configured.checks with
        refinement_dim := hr.dim_eq.trans h.configured.checks.refinement_dim }
      subcells_eq := hr.subcells_eq.trans h.configured.subcells_eq
      covers := hr.covers h.configured.covers
      factors_fit := by
        intro hdim hplanar f' hf'
        obtain ⟨f, hf, hrel⟩ := hr.exists_factors hf'
        obtain ⟨hplane, hsubcells⟩ := h.configured.factors_fit hdim hplanar f hf
        rw [hrel.dim_eq, hrel.subcells_eq, hr.subcells_eq]
        exact ⟨hplane, hsubcells⟩ }
  storable :=
    { terms_le := h.storable.terms_le
      rows_le := h.storable.rows_le
      jacobians_le := fun hdim hplanar hnone =>
        h.storable.jacobians_le hdim hplanar (hr.factors_eq_none hnone) }
  regular := by
    intro s' hs'
    obtain ⟨s, hs, rfl⟩ := hr.exists_eq hs'
    refine hr.regular (fun hdim hplanar f hf => ?_) hs (h.regular s hs)
    exact (h.configured.factors_fit hdim hplanar f hf).2
  accepts := h.accepts

end Assembly

end LowOrderRefinement
