import Gridlock.Advice
import Gridlock.Analysis.Finding
import Gridlock.Graph.Export
import Gridlock.Moment
import Gridlock.Text.Character

/-!
# Reports on files

* `Finding.render?` : the report on one file
* `SummaryEntry`, `summary` : several files in one JSON value
-/

namespace Gridlock

def version : String := "1.0.0"

def rule (c : Char) (n : Nat) : String :=
  String.ofList (List.replicate n c)

namespace Finding

def headed (heading : String) (lines : List Text) : List Text :=
  .plain ("\n" ++ heading) :: rule '-' 50 :: lines

def outcome (f : Finding) : List Text :=
  if !f.errors.isEmpty then
    ["❌ ANALYSIS FAILED", "   The trace could not be analyzed, see errors below."]
  else if f.hasDeadlock then
    ["🚨 " ++ Number.natText f.cycles.length ++ " DEADLOCK CYCLE(S) DETECTED",
      "   Threads can block each other forever on these locks."]
  else
    ["✅ NO DEADLOCK CYCLES DETECTED",
      "   The observed lock ordering is consistent across threads."]

/-- A size in the report; a size that is not known counts as zero. -/
def metricLine (f : Finding) (title name : String) : String :=
  "  • " ++ title ++ ": " ++ Number.intText ((f.metrics.lookup name).getD 0)

def metricLines (f : Finding) : List Text :=
  ["\nGraph Metrics:", f.metricLine "Lock Events" "events",
    f.metricLine "Threads (process nodes)" "processes",
    f.metricLine "Locks (resource nodes)" "resources", f.metricLine "Wait Edges" "wait_edges",
    f.metricLine "Hold Edges" "hold_edges"]

def listed (lines : List Text) : List Text :=
  numbered (fun n line => [n ++ ". " ++ line]) lines

def front (now : Moment) (file seconds : String) : List Text :=
  [rule '=' 100, "LockGraph Deadlock Analysis Report", rule '=' 100, "File: " ++ file,
    "Analysis Time: " ++ seconds ++ " seconds", "Generated: " ++ now.stamp]

/-- The report on a file, with the seconds that its analysis took. -/
def renderWith (f : Finding) (now : Moment) (file seconds : String) : Text :=
  unlines
    (front now file seconds ++ headed "🔍 EXECUTIVE SUMMARY" f.outcome ++ f.metricLines ++
    (if f.errors.isEmpty then [] else headed "❌ ERRORS" (listed (f.errors.map .plain))) ++
    (if f.warnings.isEmpty then [] else headed "⚠️  TRACE WARNINGS" (listed f.warnings)) ++
    (if f.hasDeadlock then
      headed "⚰️  DEADLOCK CYCLES" [f.report.trimEnd] ++
        headed "📚 REMEDIATION" [f.suggestions.trim]
    else []) ++
    [.plain ("\n" ++ rule '=' 100)])

/-- The report on a file. There is none if the analysis took more seconds than 64 bits can tell. -/
def render? (f : Finding) (now : Moment) (file : String) : Option Text :=
  (f.elapsed.fixed? 3).map (f.renderWith now file)

end Finding

/-- A file in a summary: its name, the finding on it, and its graph, if one is given. -/
structure SummaryEntry where
  file : String
  finding : Finding
  graph : Json := .null

namespace SummaryEntry

def toJson (e : SummaryEntry) : Json :=
  let texts (l : List Text) : Json := .arr (l.map .str)
  .obj [("file", .str e.file), ("has_deadlock", .bool e.finding.hasDeadlock),
    ("cycles", .arr (e.finding.cycles.map texts)),
    ("metrics", .obj (e.finding.metrics.map fun m => (m.1, .num (.whole m.2)))),
    ("warnings", texts e.finding.warnings), ("errors", texts (e.finding.errors.map .plain)),
    ("analysis_time", .num e.finding.elapsed), ("graph", e.graph)]

end SummaryEntry

def summary (now : Moment) (entries : List SummaryEntry) : Json :=
  let count (n : Nat) : Json := .num (.whole n)
  .obj [("analysis_summary", .obj [
      ("total_files", count entries.length),
      ("files_with_deadlocks", count (entries.countP (·.finding.hasDeadlock))),
      ("total_cycles", count (entries.flatMap (·.finding.cycles)).length),
      ("analysis_timestamp", .str now.iso),
      ("lockgraph_version", .str version)]),
    ("files", .arr (entries.map (·.toJson)))]

end Gridlock
