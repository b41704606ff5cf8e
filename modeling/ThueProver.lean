import ThueProver.Word
import ThueProver.Equation
import ThueProver.Error
import ThueProver.Text.Blank
import ThueProver.Text.Columns
import ThueProver.Text.Emoji
import ThueProver.Text.Width
import ThueProver.Text.Table
import ThueProver.Json.Value
import ThueProver.Json.Text
import ThueProver.Json.Schema
import ThueProver.Json.Forms
import ThueProver.Codebook
import ThueProver.Rule
import ThueProver.RuleBook
import ThueProver.CallGraph
import ThueProver.Admission
import ThueProver.Limits
import ThueProver.Frontier
import ThueProver.Search
import ThueProver.Replay
import ThueProver.Report
import ThueProver.Session
import ThueProver.Snapshot
import ThueProver.SessionId
import ThueProver.Prover
import ThueProver.RuleFile
import ThueProver.Display
import ThueProver.MediaType
import ThueProver.RequestTarget
import ThueProver.Service
import ThueProver.SocketAddress
import ThueProver.Workspace
import ThueProver.CommandLine
import ThueProver.Command
import ThueProver.Main
import ThueProver.Proofs.Rewriting
import ThueProver.Proofs.History
import ThueProver.Proofs.Soundness
import ThueProver.Proofs.Coding
import ThueProver.Proofs.CallGraphs
import ThueProver.Proofs.Pending
import ThueProver.Proofs.Moves
import ThueProver.Proofs.Exploration
import ThueProver.Proofs.Attempt
import ThueProver.Proofs.Refutation
import ThueProver.Proofs.JsonWords
import ThueProver.Proofs.JsonReading
import ThueProver.Proofs.SnapshotText
import ThueProver.Proofs.Agreement
import ThueProver.Proofs.Slicing
import ThueProver.Proofs.Exhaustion
import ThueProver.Proofs.Calls
import ThueProver.Proofs.Justification
import ThueProver.Proofs.Pruning
import ThueProver.Proofs.Verdicts
import ThueProver.Proofs.PrimeCodes
import ThueProver.Proofs.AxiomOrder
import ThueProver.Proofs.Multisets
import ThueProver.Proofs.Lockstep
import ThueProver.Proofs.ShortestProofs
import ThueProver.Proofs.RuleOrder
import ThueProver.Proofs.Steps
import ThueProver.Proofs.Accounting
import ThueProver.Proofs.Headroom
import ThueProver.Proofs.Renaming
import ThueProver.Proofs.Interleaving
import ThueProver.Proofs.Registry
import ThueProver.Proofs.SymbolTables
import ThueProver.Proofs.SuspendedSessions
import ThueProver.Proofs.PrimeSequence
import ThueProver.Proofs.Decoding
import ThueProver.Proofs.FrontierCalls
import ThueProver.Proofs.Rebuilding
import ThueProver.Proofs.Termination
import ThueProver.Proofs.StopReasons
import ThueProver.Proofs.AdmissionHistory
import ThueProver.Proofs.BestTrace
import ThueProver.Proofs.Mirroring
import ThueProver.Proofs.Loading
import ThueProver.Proofs.Replaying
import ThueProver.Proofs.RuleFileGrammar
import ThueProver.Proofs.RuleFileErrors
import ThueProver.Proofs.WorkspaceLoading
