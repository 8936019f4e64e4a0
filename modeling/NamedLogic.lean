import NamedLogic.Ascending
import NamedLogic.Assignment
import NamedLogic.Error
import NamedLogic.Evaluation
import NamedLogic.Node
import NamedLogic.NormalForm
import NamedLogic.Program
import NamedLogic.Proofs.AddedInformation
import NamedLogic.Proofs.Adoption
import NamedLogic.Proofs.AlikeValues
import NamedLogic.Proofs.CanonicalForms
import NamedLogic.Proofs.ClassicalAgreement
import NamedLogic.Proofs.ClearedRegistries
import NamedLogic.Proofs.CyclicListing
import NamedLogic.Proofs.DeeperRuns
import NamedLogic.Proofs.Designation
import NamedLogic.Proofs.EqualUnfoldings
import NamedLogic.Proofs.FormationFrame
import NamedLogic.Proofs.GeneratedNames
import NamedLogic.Proofs.GroundedHistories
import NamedLogic.Proofs.Identities
import NamedLogic.Proofs.JunctionValues
import NamedLogic.Proofs.Merging
import NamedLogic.Proofs.NormalFormValues
import NamedLogic.Proofs.OrderedHistories
import NamedLogic.Proofs.PairScan
import NamedLogic.Proofs.Preservation
import NamedLogic.Proofs.ReadableTexts
import NamedLogic.Proofs.RefusedRequests
import NamedLogic.Proofs.Renaming
import NamedLogic.Proofs.RepeatedSimplification
import NamedLogic.Proofs.SimplificationLaws
import NamedLogic.Proofs.SimplificationOutcome
import NamedLogic.Proofs.SimplifiedNegations
import NamedLogic.Proofs.Soundness
import NamedLogic.Proofs.TraversalLimits
import NamedLogic.Registry.Alike
import NamedLogic.Registry.Basic
import NamedLogic.Registry.Formation
import NamedLogic.Registry.Operation
import NamedLogic.Registry.ReferenceGraph
import NamedLogic.Registry.References
import NamedLogic.Registry.Session
import NamedLogic.Registry.Text
import NamedLogic.Registry.Unfolding
import NamedLogic.Settings
import NamedLogic.Simplification.Basic
import NamedLogic.Simplification.Pairing
import NamedLogic.StateFormula
import NamedLogic.Tree
import NamedLogic.Truth.Four
import NamedLogic.Truth.Order
import NamedLogic.Truth.Value
import NamedLogic.Valuation
import NamedLogic.World
