import TypeLoom.Assembly.Request
import TypeLoom.Proofs.Overriding
import TypeLoom.Proofs.Rereading
import TypeLoom.Proofs.AllOrNothing
import TypeLoom.Proofs.Requests
import TypeLoom.Proofs.FailedEdits
import TypeLoom.Proofs.FailedLoads
import TypeLoom.Proofs.Image
import TypeLoom.Proofs.TypedHeaps
import TypeLoom.Proofs.CallDepth
import TypeLoom.Proofs.StampedFields
import TypeLoom.Proofs.FlushedFiles
import TypeLoom.Proofs.Implementations
import TypeLoom.Proofs.Initialization
import TypeLoom.Proofs.Runs
import TypeLoom.Proofs.Completeness
import TypeLoom.Proofs.Assembled
import TypeLoom.Proofs.Contexts
import TypeLoom.Proofs.LoadedGraphs
import TypeLoom.Report.Draft
import TypeLoom.Script.Class
import TypeLoom.Script.Participant
import TypeLoom.Proofs.GeneratedNames
import TypeLoom.Proofs.AbstractFlags
import TypeLoom.Proofs.Lending
import TypeLoom.Proofs.Overloads
import TypeLoom.Proofs.SharedSlots
import TypeLoom.Proofs.FreshAnswers
import TypeLoom.Proofs.Copies
import TypeLoom.Proofs.InterfaceCalls
import TypeLoom.Proofs.FinalMethods
import TypeLoom.Proofs.RestoredCaches
import TypeLoom.Proofs.ForwardingOverrides
import TypeLoom.Proofs.TopologicalOrders
import TypeLoom.Proofs.ReportedCircles
import TypeLoom.Proofs.Selections
import TypeLoom.Proofs.Assignability
import TypeLoom.Proofs.Matching
import TypeLoom.Proofs.CopiedConstructors
import TypeLoom.Proofs.ClosedBatches
import TypeLoom.Proofs.FailedBuilds
import TypeLoom.Proofs.WholeBodies
