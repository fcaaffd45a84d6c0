import LowOrderRefinement.Assembly
import LowOrderRefinement.BoxMesh.Access
import LowOrderRefinement.Codec
import LowOrderRefinement.DirectStiffness
import LowOrderRefinement.Proofs.Assembly.AffineStencil
import LowOrderRefinement.Proofs.Assembly.Assembled
import LowOrderRefinement.Proofs.Assembly.Batches
import LowOrderRefinement.Proofs.Assembly.Concurrency
import LowOrderRefinement.Proofs.Assembly.Definite
import LowOrderRefinement.Proofs.Assembly.Elements
import LowOrderRefinement.Proofs.Assembly.PatchTest
import LowOrderRefinement.Proofs.Assembly.Semidefinite
import LowOrderRefinement.Proofs.Assembly.TextbookMatrix
import LowOrderRefinement.Proofs.Assembly.TotalEnergy
import LowOrderRefinement.Proofs.BoxMesh.AffineMesh
import LowOrderRefinement.Proofs.BoxMesh.AffineMetric
import LowOrderRefinement.Proofs.BoxMesh.Boundary
import LowOrderRefinement.Proofs.BoxMesh.Connectivity
import LowOrderRefinement.Proofs.BoxMesh.Corners
import LowOrderRefinement.Proofs.BoxMesh.ElementNodes
import LowOrderRefinement.Proofs.BoxMesh.Incidence
import LowOrderRefinement.Proofs.BoxMesh.MeshConsistency
import LowOrderRefinement.Proofs.BoxMesh.MeshNumbering
import LowOrderRefinement.Proofs.BoxMesh.MeshPattern
import LowOrderRefinement.Proofs.BoxMesh.MeshSlots
import LowOrderRefinement.Proofs.BoxMesh.NodeEntities
import LowOrderRefinement.Proofs.Cell.CellCoordinates
import LowOrderRefinement.Proofs.Cell.CellEnergy
import LowOrderRefinement.Proofs.Cell.ClosedForms
import LowOrderRefinement.Proofs.Cell.MetricMatrix
import LowOrderRefinement.Proofs.Cell.MetricTensor
import LowOrderRefinement.Proofs.Cell.Similarity
import LowOrderRefinement.Proofs.Cell.TextbookCell
import LowOrderRefinement.Proofs.Errors.Acceptance
import LowOrderRefinement.Proofs.Errors.Admissible
import LowOrderRefinement.Proofs.Errors.Faults
import LowOrderRefinement.Proofs.Errors.FirstRefusal
import LowOrderRefinement.Proofs.Errors.OrderingCheck
import LowOrderRefinement.Proofs.Errors.Precedence
import LowOrderRefinement.Proofs.Errors.Refusals
import LowOrderRefinement.Proofs.Errors.Requirements
import LowOrderRefinement.Proofs.Evaluation.EvaluatedTerms
import LowOrderRefinement.Proofs.Evaluation.JacobianSources
import LowOrderRefinement.Proofs.Evaluation.Orientation
import LowOrderRefinement.Proofs.Evaluation.PointTerms
import LowOrderRefinement.Proofs.Evaluation.Regularity
import LowOrderRefinement.Proofs.ExactField
import LowOrderRefinement.Proofs.Execution.Naturality
import LowOrderRefinement.Proofs.Execution.Schedules
import LowOrderRefinement.Proofs.Execution.Traversal
import LowOrderRefinement.Proofs.Invariance.Homogeneity
import LowOrderRefinement.Proofs.Invariance.Isolation
import LowOrderRefinement.Proofs.Invariance.Locality
import LowOrderRefinement.Proofs.Invariance.Renumbering
import LowOrderRefinement.Proofs.Invariance.SimilarityLaw
import LowOrderRefinement.Proofs.Invariance.SubcellNumbering
import LowOrderRefinement.Proofs.Invariance.Symmetry
import LowOrderRefinement.Proofs.Slots.Inversion
import LowOrderRefinement.Proofs.Slots.Offsets
import LowOrderRefinement.Proofs.Slots.SlotTable
import LowOrderRefinement.Proofs.Sparse.Accumulation
import LowOrderRefinement.Proofs.Sparse.BilinearForm
import LowOrderRefinement.Proofs.Sparse.Conversion
import LowOrderRefinement.Proofs.Sparse.DenseAdditions
import LowOrderRefinement.Proofs.Sparse.Elimination
import LowOrderRefinement.Proofs.Sparse.StoredPlaces
import LowOrderRefinement.Proofs.Sparse.StoredValues
import LowOrderRefinement.Proofs.Stencil.CornerCoupling
import LowOrderRefinement.Proofs.Stencil.ElementEnergy
import LowOrderRefinement.Proofs.Stencil.HatFunctions
import LowOrderRefinement.Proofs.Stencil.Neighbourhoods
import LowOrderRefinement.Proofs.Stencil.PairContributions
import LowOrderRefinement.Proofs.Stencil.RowSums
import LowOrderRefinement.Proofs.Storage.Addressing
import LowOrderRefinement.Proofs.Storage.Blocks
import LowOrderRefinement.Proofs.Storage.FactorStorage
import LowOrderRefinement.Proofs.Storage.Scatter
import LowOrderRefinement.Sparse.Diagnostics
import LowOrderRefinement.Table
