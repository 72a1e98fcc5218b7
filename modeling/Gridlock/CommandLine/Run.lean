import Gridlock.Analysis.Analyzer
import Gridlock.Analysis.Report
import Gridlock.CommandLine.Request
import Gridlock.CommandLine.Usage
import Gridlock.Json.Printer
import Gridlock.Log.Registry

/-!
# Running the command

A run analyzes the files of a command line in order with one analyzer. It then writes the reports
and the summary, and in CI mode gives its verdict. It works on a `Console`, so it can be followed
without touching a real file. The words of a command line and the names of files are characters
throughout; only what a file says can hold a lone half.

* `Work` : the state of a run
* `Work.visit`, `Work.visitAll` : analyzing a file, and all files
* `Work.publishReports`, `Work.publishSummary` : writing the reports and the summary
* `verdict` : the exit code in CI mode
* `run` : the whole command
-/

namespace Gridlock.CommandLine

/-- Why a run breaks off without an exit code. -/
inductive Failure
  | file (e : FileError)
  /-- A report cannot be printed or written. -/
  | unencodable (f : Text.Unencodable)
  /-- There is no number that the cycles could be compared with. -/
  | noLimit
  /-- An analysis took more seconds than can be told. -/
  | tooLarge
deriving DecidableEq, Repr

def Failure.message : Failure → String
  | file e => e.message
  | unencodable f => f.message
  | noLimit => "'>' not supported between instances of 'int' and 'list'"
  | tooLarge => "int too large to convert to float"

def Failure.ofWrite : WriteFault → Failure
  | .path e => file e
  | .text f => unencodable f

/-- How a run ends: with an exit code or a failure, and what it has written. -/
structure Ending where
  exit : Except Failure Nat
  console : Console

structure Work where
  console : Console
  log : Log.Registry
  analyzer : Analyzer := {}
  /-- The files that were analyzed, in order. -/
  entries : List SummaryEntry := []
  /-- Whether a file could not be analyzed. -/
  hadError : Bool := false

namespace Settings

def logLevel (s : Settings) : Int :=
  if s.debug then 10 else if s.quiet then 40 else Log.warningLevel

end Settings

section

variable (lib : Multigraph)

namespace Work

/-- Prints a line that a quiet run does not print. -/
def say (w : Work) (s : Settings) (line : String) : Work :=
  if s.quiet then w else { w with console := w.console.print line }

def complain (w : Work) (line : String) : Work :=
  { w with console := w.console.warn line, hadError := true }

/-- The entry of the summary for a file whose analysis has just ended. Its graph is given if a
summary is written and the analysis did not fail. -/
def entryOf (a : Analyzer) (s : Settings) (path : Path) (f : Finding) : SummaryEntry :=
  { file := path.text
    finding := f
    graph :=
      if s.json.isSome && f.errors.isEmpty then lib.toJson (a.session.graph.exportTo lib)
      else .null }

def record (w : Work) (s : Settings) (a : Analyzer) (path : Path) (f : Finding) : Work :=
  let w := { w with analyzer := a, entries := w.entries ++ [entryOf lib a s path f] }
  f.errors.foldl (fun w e => w.complain ("Error: " ++ e)) w

def follow (w : Work) (now : Moment) (records : List Log.Record) : Work :=
  let (log, console) := Log.Registry.sendAll now (w.log, w.console) records
  { w with log := log, console := console }

/-- Analyzes a file that is there. The answer also tells whether there was a finding. -/
def examine (w : Work) (s : Settings) (now : Moment) (path : Path) : Work × Bool :=
  let files := w.console.files
  let w := w.say s ("Analyzing " ++ path.text ++ "...")
  match w.analyzer.analyzeFile files path with
  | (a, .ok f) => ((w.follow now (w.analyzer.fileNotes files path)).record lib s a path f, true)
  | (a, .error e) =>
    let w := { w with analyzer := a }.complain
      ("Error analyzing " ++ path.text ++ ": " ++ e.message)
    (if s.debug then w.complain "<traceback>" else w, false)

/-- Analyzes a file. The answer also tells whether there was a finding, or why the run breaks off. -/
def visit (w : Work) (s : Settings) (now : Moment) (file : String) : Work × Except Failure Bool :=
  let path := Path.ofString file
  match w.console.files.has path.text with
  | .error e => (w, .error (.file e))
  | .ok false => (w.complain ("Error: File not found: " ++ path.text), .ok false)
  | .ok true =>
    let (w, found) := w.examine lib s now path
    (w, .ok found)

/-- Goes on after a file, unless the run breaks off. In CI mode, a file without a finding is the last
one. -/
def proceed (s : Settings) (rest : Work → Work × Except Failure Bool) :
    Work × Except Failure Bool → Work × Except Failure Bool
  | (w, .error e) => (w, .error e)
  | (w, .ok found) => if s.ciMode && !found then (w, .ok false) else rest w

/-- Analyzes files in order. The answer also tells whether all of them were visited. -/
def visitAll (w : Work) (s : Settings) (now : Moment) : List String → Work × Except Failure Bool
  | [] => (w, .ok true)
  | file :: rest => proceed s (fun w => w.visitAll s now rest) (w.visit lib s now file)

def save (w : Work) (path : String) (text : Text) : Work × Except Failure Unit :=
  let (files, written) := w.console.files.write path text
  ({ w with console.files := files }, written.mapError .ofWrite)

def saveAs (w : Work) (s : Settings) (path : String) (text : Text) (title : String) :
    Work × Except Failure Unit :=
  match w.save path text with
  | (w, .ok _) => (w.say s (title ++ " saved to " ++ path), .ok ())
  | (w, .error e) => (w, .error e)

def display (w : Work) (text : Text) : Work × Except Failure Unit :=
  match w.console.display? text with
  | .ok c => ({ w with console := c }, .ok ())
  | .error f => (w, .error (.unencodable f))

def reports (w : Work) (now : Moment) : Except Failure Text :=
  match w.entries.mapM fun e => e.finding.render? now e.file with
  | some reports => .ok (Text.intercalate "\n\n" reports)
  | none => .error .tooLarge

def publishReports (w : Work) (s : Settings) (now : Moment) : Work × Except Failure Unit :=
  if w.entries.isEmpty then (w, .ok ())
  else
    match w.reports now, s.output with
    | .error e, _ => (w, .error e)
    | .ok text, none => w.display text
    | .ok text, some path => w.saveAs s path text "Report"

def publishSummary (w : Work) (s : Settings) (now : Moment) : Work × Except Failure Unit :=
  match s.json with
  | none => (w, .ok ())
  | some path =>
    if w.entries.isEmpty then (w, .ok ())
    else w.saveAs s path (summary now w.entries).pretty "JSON report"

def cycleCount (w : Work) : Nat :=
  (w.entries.flatMap (·.finding.cycles)).length

end Work

/-- The verdict of a run in CI mode: an exit code and what is printed with it. -/
def verdict (hadError : Bool) (cycles : Nat) (max : Option Int) : Except Failure (Nat × String) :=
  if hadError then .ok (3, "❌ CI FAILURE: analysis errors occurred")
  else
    match max with
    | none => .error .noLimit
    | some max =>
      if max < cycles then
        .ok (2, "❌ CI FAILURE: " ++ Number.natText cycles ++
          " deadlock cycle(s) found (max allowed: " ++ Number.intText max ++ ")")
      else .ok (0, "✅ CI PASSED: No deadlock cycles above the allowed maximum")

namespace Work

def finish (w : Work) (s : Settings) (now : Moment) : Ending :=
  match w.publishReports s now with
  | (w, .error e) => ⟨.error e, w.console⟩
  | (w, .ok _) =>
    match w.publishSummary s now with
    | (w, .error e) => ⟨.error e, w.console⟩
    | (w, .ok _) =>
      if s.ciMode then
        match verdict w.hadError w.cycleCount s.maxDeadlocks with
        | .error e => ⟨.error e, w.console⟩
        | .ok (code, line) => ⟨.ok code, w.console.print line⟩
      else ⟨.ok 0, w.console⟩

end Work

def analyzeAll (s : Settings) (now : Moment) (c : Console) : Ending :=
  match Log.Registry.initial.setup c.files "lockgraph" s.logLevel s.logFile with
  | (_, .error e) => ⟨.error (.file e), c⟩
  | (log, .ok files) =>
    match ({ console := { c with files := files }, log := log } : Work).visitAll lib s now s.files with
    | (w, .ok true) => w.finish s now
    | (w, .ok false) => ⟨.ok 3, w.console⟩
    | (w, .error e) => ⟨.error e, w.console⟩

def run (now : Moment) (c : Console) (args : List String) : Ending :=
  match Settings.ofWords args with
  | .error .help => ⟨.ok 0, c.print help⟩
  | .error .version => ⟨.ok 0, c.print versionLine⟩
  | .error (.misuse m) =>
    ⟨.ok 2, (c.warn usage).warn ("lockgraph: error: " ++ m.message)⟩
  | .ok s => if s.files.isEmpty then ⟨.ok 1, c.print help⟩ else analyzeAll lib s now c

end

end Gridlock.CommandLine
