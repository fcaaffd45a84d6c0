import LowOrderRefinement.Decimal.Shortest
import LowOrderRefinement.Document
import LowOrderRefinement.Options
import LowOrderRefinement.Refinement
import LowOrderRefinement.Space

/-! Reading options, embeddings and names from documents and writing them. Options that
a document leaves out take their standard values, fields that have no meaning are
ignored, and a tolerance that is not a finite number is written as missing. -/

namespace LowOrderRefinement

-- powers have one meaning, whatever is imported
attribute [local instance (1100)] instPowNat

open Document

namespace Dimension

def names : List (String × Dimension) := [("Two", two), ("Three", three)]

def ofDocument? : Document → Option Dimension := choice? names

def toDocument : Dimension → Document := ofChoice names

end Dimension

namespace SubcellGeometry

def names : List (String × SubcellGeometry) :=
  [("Quadrilateral", quadrilateral), ("Hexahedron", hexahedron), ("Other", other)]

def ofDocument? : Document → Option SubcellGeometry := choice? names

def toDocument : SubcellGeometry → Document := ofChoice names

end SubcellGeometry

namespace BasisFamily

def names : List (String × BasisFamily) := [("NodalTensor", nodalTensor), ("Other", other)]

def ofDocument? : Document → Option BasisFamily := choice? names

def toDocument : BasisFamily → Document := ofChoice names

end BasisFamily

namespace Embedding

def ofDocument? (d : Document) : Option Embedding := do
  match ← fields? ["parent", "offset"] d with
  | [parent, offset] => return ⟨← required? size? parent, ← required? size? offset⟩
  | _ => none

def toDocument (e : Embedding) : Document :=
  .object [("parent", .integer e.parent), ("offset", .integer e.offset)]

end Embedding

namespace PlanarJacobians

def names : List (String × PlanarJacobians) :=
  [("GeometricFactors", geometricFactors), ("Vertices", vertices)]

def ofDocument? : Document → Option PlanarJacobians := choice? names

def toDocument : PlanarJacobians → Document := ofChoice names

end PlanarJacobians

namespace Options

/-- A finite number by its digits, and any other as missing. -/
def numberDocument (x : Float) : Document :=
  if x.isFinite then
    let (digits, power) := Decimal.digits x
    .decimal (Decimal.isNegative x) (digits * 10 ^ power.toNat) (-power).toNat
  else .null

def ofDocument? (d : Document) : Option (Options Float) := do
  match ← fields? ["parallel", "planar_jacobians", "verify_planar_jacobians"] d with
  | [parallel, planar, verify] =>
    let o : Options Float := standard
    return {
      parallel := ← defaulted? o.parallel bool? parallel
      planarJacobians := ← defaulted? o.planarJacobians PlanarJacobians.ofDocument? planar
      verify := ← defaulted? o.verify (optional? float?) verify }
  | _ => none

def verifyDocument (o : Options Float) : Document :=
  match o.verify with
  | some x => numberDocument x
  | none => .null

def toDocument (o : Options Float) : Document :=
  .object
    [("parallel", .bool o.parallel),
      ("planar_jacobians", o.planarJacobians.toDocument),
      ("verify_planar_jacobians", o.verifyDocument)]

def writesNoTolerance (o : Options Float) : Bool :=
  match o.verifyDocument with
  | .null => true
  | _ => false

/-- Whether two choices are equal, where an undefined tolerance equals none. -/
def same (a b : Options Float) : Bool :=
  a.parallel = b.parallel && a.planarJacobians = b.planarJacobians && a.verify == b.verify

/-- Whether reading what is written gives the same choices. -/
def roundTrips (o : Options Float) : Bool :=
  match ofDocument? o.toDocument with
  | some read => read.same o
  | none => false

def isStandard (o : Options Float) : Bool := o.same standard

end Options

end LowOrderRefinement
