import SinkReach.Main
import SinkReach.Term.Dag
import SinkReach.Term.Script
import SinkReach.Proofs.Analysis.Allocation
import SinkReach.Proofs.Analysis.CallCounts
import SinkReach.Proofs.Analysis.Coverage
import SinkReach.Proofs.Term.Constructors
import SinkReach.Proofs.Term.Identity
import SinkReach.Proofs.Term.Symbols
import SinkReach.Proofs.Term.VisitStack
import SinkReach.Proofs.Term.Extensionality
import SinkReach.Proofs.ModelSearch.Facts
import SinkReach.Proofs.Naming.Search
import SinkReach.Proofs.ModelSearch.Sat
import SinkReach.Proofs.ModelSearch.Unsat
import SinkReach.Proofs.ModelSearch.WellSorted
import SinkReach.Proofs.ModelSearch.Exact
import SinkReach.Proofs.Program.Documents
import SinkReach.Proofs.Simulation.Bridging
import SinkReach.Proofs.Route.Digraph
import SinkReach.Proofs.Route.Ranking
import SinkReach.Proofs.Route.KeyOrder
import SinkReach.Proofs.Route.KeyWalk
import SinkReach.Proofs.Route.KeptEdges
import SinkReach.Proofs.Route.Pruning
import SinkReach.Proofs.Route.Resumption
import SinkReach.Proofs.Route.SearchStack
import SinkReach.Proofs.Step.Arrivals
import SinkReach.Proofs.Step.Branching
import SinkReach.Proofs.Step.MergeExact
import SinkReach.Proofs.Step.Negation
import SinkReach.Proofs.Analysis.Confirmation
import SinkReach.Proofs.Analysis.Completeness
import SinkReach.Proofs.Analysis.Exhaustion
import SinkReach.Proofs.Analysis.Faults
import SinkReach.Proofs.Analysis.Frontier
import SinkReach.Proofs.Analysis.MergeCounter
import SinkReach.Proofs.Analysis.PathReturns
import SinkReach.Proofs.Analysis.Paths
import SinkReach.Proofs.Analysis.Termination
import SinkReach.Proofs.Symbolic.Reads
import SinkReach.Proofs.Typing.Search
