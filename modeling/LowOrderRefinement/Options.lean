/-! The choices that a caller of an assembly has. -/

namespace LowOrderRefinement

/-- Where the Jacobians of planar sub-cells are taken from. -/
inductive PlanarJacobians
  /-- From the geometric factors of the mesh, computed first if the mesh has none. -/
  | geometricFactors
  /-- From the vertices, in closed form. -/
  | vertices
deriving DecidableEq

/-- The choices for an assembly, with a tolerance of type `τ`. -/
structure Options (τ : Type) where
  /-- Whether sub-cells and elements are visited concurrently. -/
  parallel : Bool
  planarJacobians : PlanarJacobians
  /-- The relative distance up to which planar geometric factors may differ from the Jacobians
  that the vertices give; without one they are not compared. -/
  verify : Option τ
deriving DecidableEq

namespace Options

variable {τ σ : Type}

def standard : Options τ := ⟨true, .geometricFactors, none⟩

def withParallel (o : Options τ) (parallel : Bool) : Options τ := { o with parallel }

def withPlanarJacobians (o : Options τ) (planarJacobians : PlanarJacobians) : Options τ :=
  { o with planarJacobians }

def withVerify (o : Options τ) (verify : Option τ) : Options τ := { o with verify }

def map (f : τ → σ) (o : Options τ) : Options σ :=
  ⟨o.parallel, o.planarJacobians, o.verify.map f⟩

end Options

end LowOrderRefinement
