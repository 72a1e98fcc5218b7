import Gridlock.Advice
import Gridlock.Analysis.Finding
import Gridlock.Analysis.Journal
import Gridlock.Trace.File

/-!
# The analyzer

The analyzer takes traces one at a time. Its session starts anew for each, so that nothing of one
trace is left when the next one is analyzed; a file that is no trace leaves the session as it is.

* `Analyzer` : a session and its last detection
* `Analyzer.analyze` : the analysis of a trace, which adds to a finding
* `Analyzer.analyzeFile` : the analysis of a file
* `Analyzer.notes`, `Analyzer.fileNotes` : what these say while they work
-/

namespace Gridlock

/-- A session that analyzes traces, and what it detected last. -/
structure Analyzer where
  session : Session := {}
  lastDetection : Option Detection := none
deriving DecidableEq, Repr

namespace Analyzer

/-- The session after a trace, which it starts anew for. -/
def loaded (a : Analyzer) (t : Trace) : Session :=
  a.session.reset.load t

/-- Analyzes a trace. What the finding says of the file and its errors stays, and its warnings are
added to. -/
def analyze (a : Analyzer) (t : Trace) (base : Finding) : Analyzer × Finding :=
  let session := a.loaded t
  let detection := session.graph.detect
  ({ session := session, lastDetection := some detection },
    { base with
      warnings := base.warnings ++ t.warnings.map (·.text)
      hasDeadlock := detection.hasDeadlock
      cycles := detection.cycleNames
      report := deadlockReport detection.cycles
      suggestions := suggestions detection.cycles
      metrics := (session.graph.metrics t.eventCount).toList })

def notes (a : Analyzer) (t : Trace) : List Log.Record :=
  let started := a.session.reset
  let graph := (a.loaded t).graph
  a.session.graph.resetNotes ++ started.notes t.script ++ graph.detectNotes ++
    [.info "lockgraph.session"
      ((if t.source = "" then "<trace>" else t.source) ++ ": " ++
        Number.natText t.threads.length ++ " thread(s), " ++
        Number.natText graph.detect.cycles.length ++ " cycle(s)")]

/-- The number of bytes above which a trace counts as large. -/
def largeSize : Nat := 10 * 1024 * 1024

def isUsualSuffix (suffix : String) : Bool :=
  Text.smalls (suffix : Text).points ∈ [(".json" : Text).points, (".trace" : Text).points]

def fileWarnings (path : Path) (size : Nat) : List String :=
  (if isUsualSuffix path.suffix then []
    else ["Warning: Unusual file extension '" ++ path.suffix ++ "' for event trace"]) ++
  (if size ≤ largeSize then []
    else ["Warning: Large trace (" ++ (Number.Binary64.ofRatio false size (Nat.pow 2 20)).fixed 1 ++
      "MB) may impact analysis performance"])

/-- The finding on a file before it is read, which may say why it is not. -/
def inspect (files : FileTree) (path : Path) : Except FileError Finding := do
  if !(← files.has path.text) then
    return { file := path.text, errors := ["File does not exist: " ++ path.text] }
  match files.lookup path.text with
  | .ok (.file content) =>
    return { file := path.text, warnings := (fileWarnings path content.size).map .plain }
  | .ok (.barred (.file size)) =>
    return { file := path.text, warnings := (fileWarnings path size).map .plain }
  | _ => return { file := path.text, errors := ["Path is not a file: " ++ path.text] }

/-- Analyzes a file. A path that cannot be looked up and a number that is too long stop the
analysis; every other fault of the file goes into the finding. -/
def analyzeFile (a : Analyzer) (files : FileTree) (path : Path) :
    Analyzer × Except TraceError Finding :=
  match inspect files path with
  | .error e => (a, .error (.unreachable e))
  | .ok base =>
    if !base.errors.isEmpty then (a, .ok base)
    else
      match Trace.load files path with
      | .ok t =>
        let (a, finding) := a.analyze t base
        (a, .ok finding)
      | .error e =>
        if e.isFormat then
          (a, .ok { base with
            errors := ["ERROR loading trace " ++ path.text ++ ": " ++ e.message] })
        else (a, .error e)

def fileNotes (a : Analyzer) (files : FileTree) (path : Path) : List Log.Record :=
  match inspect files path with
  | .error _ => []
  | .ok base =>
    if !base.errors.isEmpty then []
    else
      match Trace.load files path with
      | .ok t => t.readNotes ++ a.notes t
      | .error _ => []

end Analyzer

end Gridlock
