import Gridlock.Deadlock
import Gridlock.Log.Registry
import Gridlock.Trace.Basic

/-!
# What the analysis says while it works

Each step of the analysis can be followed in log records. They depend only on the state before the
step and on the step, so they are told apart from the step itself.

* `Session.notesOn`, `Session.notes` : the records of an event, and of a list of events
* `Graph.resetNotes`, `Graph.detectNotes` : the records of emptying and of searching the graph
* `Trace.readNotes` : the records of reading a trace
-/

namespace Gridlock

open Log (Record)

def builderNote (message : Text) : Record := .debug "lockgraph.builder" message

def detectorNote (message : Text) : Record := .debug "lockgraph.detector" message

def nameOrNone (name : Option Text) : Text :=
  name.getD "None"

namespace Session

def acquireNotes (s : Session) (thread : Text) (lock : Option Text) (flavour : Option Flavour) :
    List Record :=
  match s.taking thread lock flavour with
  | .unnamed => [builderNote ("Ignoring acquire without resource in " ++ thread)]
  | .again _ key => [builderNote ("Reentrant acquire of " ++ key ++ " by " ++ thread)]
  | .fresh _ key true => [builderNote ("Wait edge " ++ thread ++ " -> " ++ key)]
  | .fresh _ key false => [builderNote ("First lock of " ++ thread ++ ": " ++ key)]

def releaseNotes (s : Session) (thread : Text) (lock : Option Text) (flavour : Option Flavour) :
    List Record :=
  match named? lock with
  | none => []
  | some l =>
    match s.releasing? thread l flavour with
    | some _ => []
    | none => [builderNote ("Unmatched release of " ++ lockKey l flavour ++ " by " ++ thread)]

/-- The records of an event that comes next. -/
def notesOn (s : Session) (e : Event) : List Record :=
  match e.action with
  | .start | .park => []
  | .acquire => s.acquireNotes e.thread e.lock e.flavour
  | .tryAcquire =>
    if e.timed then s.acquireNotes e.thread e.lock e.flavour
    else
      [builderNote ("Untimed try-acquire of " ++ nameOrNone e.lock ++ " by " ++ e.thread ++
        " ignored")]
  | .release => s.releaseNotes e.thread e.lock e.flavour
  | .unpark =>
    [builderNote (e.thread ++ " unparks " ++ nameOrNone e.target ++ " (advisory only)")]

def notes (s : Session) : List Event → List Record
  | [] => []
  | e :: rest => s.notesOn e ++ (s.apply e).notes rest

end Session

namespace Graph

def resetNotes (g : Graph) : List Record :=
  [.debug "lockgraph.model"
    ("Graph reset, " ++ Number.natText g.rows.length ++ " nodes discarded")]

/-- A vertex and the targets of its edges. -/
def rowNote (r : Row) : Record :=
  detectorNote ("Node " ++ r.node.describe ++ " -> [" ++
    Text.intercalate ", " (r.targets.map (·.describe)) ++ "]")

/-- A closed path, and whether it counts. -/
def pathNote (path : List Node) : Record :=
  detectorNote ((if isWitness path then "Deadlock cycle: " else "Rejected cycle: ") ++
    pathText path)

def detectNotes (g : Graph) : List Record :=
  [detectorNote ("Starting deadlock detection over " ++ Number.natText g.rows.length ++
      " nodes")] ++
    g.rows.map rowNote ++ g.digraph.closedPaths.map pathNote ++
    [detectorNote ("Detected " ++ Number.natText g.detect.cycles.length ++ " deadlock cycle(s)")]

end Graph

def Trace.readNotes (t : Trace) : List Record :=
  [.debug "lockgraph.trace" ("Parsed trace: " ++ Number.natText t.threads.length ++ " threads, " ++
    Number.natText t.eventCount ++ " events")]

end Gridlock
