import Gridlock.Advice
import Gridlock.Analysis.Analyzer
import Gridlock.Analysis.Finding
import Gridlock.Analysis.Journal
import Gridlock.Analysis.Report
import Gridlock.Assoc
import Gridlock.CommandLine.Request
import Gridlock.CommandLine.Run
import Gridlock.CommandLine.Switch
import Gridlock.CommandLine.Usage
import Gridlock.CommandLine.Word
import Gridlock.Console
import Gridlock.Deadlock
import Gridlock.Event
import Gridlock.File.Path
import Gridlock.File.Tree
import Gridlock.Graph.Basic
import Gridlock.Graph.Export
import Gridlock.Json.Basic
import Gridlock.Json.Printer
import Gridlock.Json.Reader
import Gridlock.Lock.Flavour
import Gridlock.Lock.Holdings
import Gridlock.Log.Registry
import Gridlock.Main
import Gridlock.Moment
import Gridlock.Number.Binary64
import Gridlock.Number.Numeral
import Gridlock.Number.Shortest
import Gridlock.Number.Text
import Gridlock.Proofs.Tour
import Gridlock.Search
import Gridlock.Session
import Gridlock.Text.Basic
import Gridlock.Text.Character
import Gridlock.Text.Encoding
import Gridlock.Text.Quoted
import Gridlock.Trace.Basic
import Gridlock.Trace.File
import Gridlock.Trace.Reader
import Gridlock.Proofs.ClosedPath
import Gridlock.Proofs.Detection
import Gridlock.Proofs.FirstEntry
import Gridlock.Proofs.History
import Gridlock.Proofs.Grounding
import Gridlock.Proofs.Ring
import Gridlock.Proofs.Ordering
import Gridlock.Proofs.Consistency
import Gridlock.Proofs.Interleaving
import Gridlock.Proofs.Entrance
import Gridlock.Proofs.Examination
import Gridlock.Proofs.Circle
import Gridlock.Proofs.Guarded
import Gridlock.Proofs.Reordering
import Gridlock.Proofs.Reading
import Gridlock.Proofs.Account
import Gridlock.Proofs.Flattening
import Gridlock.Proofs.Isolation
import Gridlock.Proofs.Grammar
import Gridlock.Proofs.Utf8
import Gridlock.Proofs.Scanning
import Gridlock.Proofs.Parsing
import Gridlock.Proofs.Diagnosis
import Gridlock.Proofs.Parking
import Gridlock.Proofs.Cleaning
import Gridlock.Proofs.Multigraph
import Gridlock.Proofs.Exporting
import Gridlock.Proofs.Writing
import Gridlock.Proofs.Publishing
import Gridlock.Proofs.Visiting
import Gridlock.Proofs.Summary
import Gridlock.Proofs.Verdict
import Gridlock.Proofs.Sharing
import Gridlock.Proofs.Acyclic
import Gridlock.Proofs.Multiplicity
import Gridlock.Proofs.Recursion
import Gridlock.Proofs.Reentrance
import Gridlock.Proofs.Shape
import Gridlock.Proofs.Counting
import Gridlock.Proofs.BareRelease
import Gridlock.Proofs.BlankNames
import Gridlock.Proofs.Labelling
import Gridlock.Proofs.Chronicle
import Gridlock.Proofs.Growth
import Gridlock.Proofs.Measurement
import Gridlock.Proofs.Fidelity
import Gridlock.Proofs.Bookkeeping
import Gridlock.Proofs.Naming
