import Oikos.Archon.BTreeRefinement
import Oikos.Archon.Relational.RowsMatch
import Oikos.Archon.Relational.Transparent
import Oikos.Koinon.Settlement
import Oikos.Archon.Capability
import Oikos.Archon.Scheduler
import Oikos.Archon.Relational.SubqueryCache
import Oikos.Archon.Relational.IndexRuns
import Oikos.Koinon.Streaming
import Oikos.Koinon.RewardShares
import Oikos.Koinon.MessageText
import Oikos.Koinon.Node
import Oikos.Koinon.StateRoot
import Oikos.Koinon.Treasury
import Oikos.Archon.Relational.SelectListExact
import Oikos.Eidos.DivisionSafety
import Oikos.Telos.Cluster
import Oikos.Identity.StatusList
import Oikos.Identity.AuditLog
import Oikos.Identity.KeyBinding
import Oikos.Telos.Project
import Oikos.Archon.StorageCoherence
import Oikos.Archon.Relational.CodecExact
import Oikos.Archon.Relational.JoinEquality
import Oikos.Archon.Relational.Predicates
import Oikos.Archon.Relational.GroupTotals
import Oikos.Archon.Relational.OrderBy
import Oikos.Archon.Relational.ExprText
import Oikos.Archon.Relational.PlanEstimate
import Oikos.Eidos.CallGraph
import Oikos.Eidos.Normalized
import Oikos.Eidos.AliasCircles
import Oikos.Eidos.MagnitudeAtoms
import Oikos.Eidos.RoundTrip
import Oikos.Koinon.Conservation
import Oikos.Koinon.BlockRewards
import Oikos.Koinon.Escrow
import Oikos.Koinon.JailTerms
import Oikos.Koinon.ChainLinks
import Oikos.Koinon.DagGroups
import Oikos.Telos.Unrolling
import Oikos.Telos.Locations
import Oikos.Telos.IntervalProducts
import Oikos.Identity.KeyWrap
import Oikos.Identity.RepeatedShares
import Oikos.Identity.ProviderRuns
import Oikos.Archon.Relational.PushBack
import Oikos.Telos.InvariantBlocks
import Oikos.Telos.StructFields
import Oikos.Telos.Nesting
import Oikos.Telos.FrontEnd
import Oikos.Telos.SolverOverflow
