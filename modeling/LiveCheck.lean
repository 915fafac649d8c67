import LiveCheck.Main
import LiveCheck.Proofs.AliasChains
import LiveCheck.Proofs.ArgumentBinding
import LiveCheck.Proofs.ClosedStrings
import LiveCheck.Proofs.CoherentTables
import LiveCheck.Proofs.ControlDiagnostics
import LiveCheck.Proofs.ControlFlow
import LiveCheck.Proofs.Delivery
import LiveCheck.Proofs.EndlessCalls
import LiveCheck.Proofs.FaithfulHandles
import LiveCheck.Proofs.Garbage
import LiveCheck.Proofs.GuardedComparisons
import LiveCheck.Proofs.JoinedTypes
import LiveCheck.Proofs.LineEndings
import LiveCheck.Proofs.LineRecovery
import LiveCheck.Proofs.LocalChanges
import LiveCheck.Proofs.ModuleNames
import LiveCheck.Proofs.NestedSpans
import LiveCheck.Proofs.NormalPaths
import LiveCheck.Proofs.ParseProgress
import LiveCheck.Proofs.PointwiseTuples
import LiveCheck.Proofs.Positions
import LiveCheck.Proofs.PreparedHierarchies
import LiveCheck.Proofs.ReadBackTypes
import LiveCheck.Proofs.ScopesOfNames
import LiveCheck.Proofs.SearchOrder
import LiveCheck.Proofs.Settling
import LiveCheck.Proofs.StaticScoping
import LiveCheck.Proofs.StringRoundTrips
import LiveCheck.Proofs.TallExpressions
import LiveCheck.Proofs.TransitiveTypes
import LiveCheck.Proofs.TupleOperators
import LiveCheck.Proofs.Underlines
import LiveCheck.Proofs.VerbatimArguments
import LiveCheck.Proofs.WildcardExports
