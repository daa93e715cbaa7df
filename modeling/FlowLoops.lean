import FlowLoops.Main
import FlowLoops.Session.Step
import FlowLoops.Proofs.Graph.Reachable
import FlowLoops.Proofs.Graph.Walk
import FlowLoops.Proofs.Search.Move
import FlowLoops.Proofs.Search.Invariant
import FlowLoops.Proofs.Search.Run
import FlowLoops.Proofs.Loop.Forest
import FlowLoops.Proofs.Loop.Soundness
import FlowLoops.Proofs.Loop.Completeness
import FlowLoops.Proofs.Loop.Natural
import FlowLoops.Proofs.Search.Recursive
import FlowLoops.Proofs.Search.Simulation
import FlowLoops.Proofs.Search.Restriction
import FlowLoops.Proofs.Loop.Locality
import FlowLoops.Proofs.Search.Count
import FlowLoops.Proofs.Search.Repeats
import FlowLoops.Proofs.Loop.Parallel
import FlowLoops.Proofs.Description.Labels
import FlowLoops.Proofs.Report.Agreement
import FlowLoops.Proofs.Analysis.Outcome
import FlowLoops.Proofs.Analysis.Schedule
import FlowLoops.Proofs.Graph.Growth
import FlowLoops.Proofs.Session.Change
import FlowLoops.Proofs.Session.Ownership
import FlowLoops.Proofs.Analysis.Faultless
import FlowLoops.Proofs.Graph.Matching
import FlowLoops.Proofs.Graph.Renumbering
import FlowLoops.Proofs.Loop.Pairing
import FlowLoops.Proofs.Description.Building
import FlowLoops.Proofs.Graph.Reordering
import FlowLoops.Proofs.Description.Reordering
import FlowLoops.Proofs.Json.Layout
import FlowLoops.Proofs.Json.Numeral
import FlowLoops.Proofs.Json.Spelling
import FlowLoops.Proofs.Json.Skipping
import FlowLoops.Proofs.Json.Reading
import FlowLoops.Proofs.Json.Records
import FlowLoops.Proofs.Json.Unambiguous
import FlowLoops.Proofs.Json.Printing
import FlowLoops.Proofs.Description.Grammar
import FlowLoops.Proofs.Description.Texts
import FlowLoops.Proofs.Description.RoundTrip
import FlowLoops.Proofs.Report.Recovery
import FlowLoops.Proofs.Session.Tracing
import FlowLoops.Proofs.Session.Nesting
import FlowLoops.Proofs.Description.Violation
import FlowLoops.Proofs.Loop.Tree
import FlowLoops.Proofs.Graph.History
import FlowLoops.Proofs.Loop.Topology
import FlowLoops.Proofs.Analysis.Narrowing
import FlowLoops.Proofs.CommandLine.Ends
import FlowLoops.Proofs.CommandLine.Scanning
import FlowLoops.Proofs.CommandLine.Verbosity
import FlowLoops.Proofs.Graph.Incidence
import FlowLoops.Proofs.Session.EdgeCalls
import FlowLoops.Proofs.Session.Ledger
import FlowLoops.Proofs.Description.Renaming
import FlowLoops.Proofs.Session.CheckedCalls
import FlowLoops.Proofs.Graph.Dot
import FlowLoops.Proofs.Search.Iteration
import FlowLoops.Proofs.Search.Account
import FlowLoops.Proofs.Search.Reach
import FlowLoops.Proofs.Search.Coherence
import FlowLoops.Proofs.Loop.Logging
import FlowLoops.Proofs.Report.Lines
import FlowLoops.Proofs.Files.Writing
import FlowLoops.Proofs.CommandLine.Output
