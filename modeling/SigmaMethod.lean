import SigmaMethod.Checked
import SigmaMethod.CommandLine.Arguments
import SigmaMethod.CommandLine.Invocation
import SigmaMethod.CommandLine.Report
import SigmaMethod.CommandLine.Run
import SigmaMethod.Component.Builder
import SigmaMethod.Component.Placement
import SigmaMethod.Edit.Basic
import SigmaMethod.Edit.Edited
import SigmaMethod.Edit.Renumbering
import SigmaMethod.Json.Codec
import SigmaMethod.Json.Reader
import SigmaMethod.Json.Records
import SigmaMethod.Json.Tree
import SigmaMethod.Lines
import SigmaMethod.Main
import SigmaMethod.Matching.Frontier
import SigmaMethod.Matching.Rank
import SigmaMethod.Matching.Record
import SigmaMethod.Matching.Reduction
import SigmaMethod.Matching.Search
import SigmaMethod.Matching.Solver
import SigmaMethod.Model
import SigmaMethod.Offsets.Analyse
import SigmaMethod.Offsets.Analysis
import SigmaMethod.Offsets.Least
import SigmaMethod.Proofs.Component.Assembled
import SigmaMethod.Proofs.Component.Build
import SigmaMethod.Proofs.Component.Compressed
import SigmaMethod.Proofs.Component.Exit
import SigmaMethod.Proofs.Component.Expand
import SigmaMethod.Proofs.Component.Misses
import SigmaMethod.Proofs.Component.Partition
import SigmaMethod.Proofs.Component.Spliced
import SigmaMethod.Proofs.Component.Steps
import SigmaMethod.Proofs.Component.Surrogate
import SigmaMethod.Proofs.Component.Taken
import SigmaMethod.Proofs.Component.WrittenOut
import SigmaMethod.Proofs.Edit.Acceptance
import SigmaMethod.Proofs.Edit.Basic
import SigmaMethod.Proofs.Edit.Carry
import SigmaMethod.Proofs.Edit.Faithful
import SigmaMethod.Proofs.Edit.History
import SigmaMethod.Proofs.Edit.NewRows
import SigmaMethod.Proofs.Edit.Removal
import SigmaMethod.Proofs.Edit.Renumbering
import SigmaMethod.Proofs.Fits
import SigmaMethod.Proofs.Json.Exact
import SigmaMethod.Proofs.Json.Fields
import SigmaMethod.Proofs.Json.Reading
import SigmaMethod.Proofs.Json.Records
import SigmaMethod.Proofs.Json.Spelling
import SigmaMethod.Proofs.Matching.AlternatingPath
import SigmaMethod.Proofs.Matching.Assignment
import SigmaMethod.Proofs.Matching.Attempt
import SigmaMethod.Proofs.Matching.Augment
import SigmaMethod.Proofs.Matching.Completion
import SigmaMethod.Proofs.Matching.Duality
import SigmaMethod.Proofs.Matching.Frontier
import SigmaMethod.Proofs.Matching.Handover
import SigmaMethod.Proofs.Matching.Pairing
import SigmaMethod.Proofs.Matching.Picks
import SigmaMethod.Proofs.Matching.PriorityMap
import SigmaMethod.Proofs.Matching.Reduction
import SigmaMethod.Proofs.Matching.Restart
import SigmaMethod.Proofs.Matching.Search
import SigmaMethod.Proofs.Matching.SearchTree
import SigmaMethod.Proofs.Matching.Session
import SigmaMethod.Proofs.Matching.Solver
import SigmaMethod.Proofs.Matching.StructuralRank
import SigmaMethod.Proofs.Matching.Sweep
import SigmaMethod.Proofs.Matching.Transversal
import SigmaMethod.Proofs.MissedAccess
import SigmaMethod.Proofs.Offsets.Canonical
import SigmaMethod.Proofs.Offsets.Certificate
import SigmaMethod.Proofs.Offsets.Comparison
import SigmaMethod.Proofs.Offsets.Least
import SigmaMethod.Proofs.Offsets.SharedColumns
import SigmaMethod.Proofs.Offsets.StaleStart
import SigmaMethod.Proofs.Offsets.Sweeps
import SigmaMethod.Proofs.Outcome
import SigmaMethod.Proofs.Range.Analysis
import SigmaMethod.Proofs.Range.Augment
import SigmaMethod.Proofs.Range.Reduction
import SigmaMethod.Proofs.Refused
import SigmaMethod.Proofs.Signature.Accepted
import SigmaMethod.Proofs.Signature.BulkWrites
import SigmaMethod.Proofs.Signature.Calls
import SigmaMethod.Proofs.Signature.Rebuilt
import SigmaMethod.Proofs.Signature.Writes
import SigmaMethod.Proofs.Update
import SigmaMethod.Refusal
import SigmaMethod.Settings
import SigmaMethod.SettingsFile
import SigmaMethod.Signature.Basic
import SigmaMethod.Signature.Query
import SigmaMethod.Signature.Update
import SigmaMethod.SortedMap
import SigmaMethod.Text.Decimal
import SigmaMethod.Text.Digits
import SigmaMethod.Text.File
import SigmaMethod.Text.Table
import SigmaMethod.Toml.Document
import SigmaMethod.Toml.Number
import SigmaMethod.Toml.Scan
