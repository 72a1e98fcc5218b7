import Gridlock.Deadlock
import Gridlock.Number.Text

/-!
# Findings

* `Finding` : what is known about a trace after its analysis
* `Metrics` : the sizes of the trace and of its graph
-/

namespace Gridlock

structure Metrics where
  events : Nat
  processes : Nat
  resources : Nat
  waitEdges : Nat
  holdEdges : Nat
  cycles : Nat
deriving DecidableEq, Repr

namespace Metrics

def edges (m : Metrics) : Nat :=
  m.waitEdges + m.holdEdges

def toList (m : Metrics) : List (String × Int) :=
  [("events", m.events), ("processes", m.processes), ("resources", m.resources),
    ("edges", m.edges), ("wait_edges", m.waitEdges), ("hold_edges", m.holdEdges),
    ("cycles", m.cycles)]

end Metrics

def Graph.rowsOf (g : Graph) (side : Side) : List Row :=
  g.rows.filter (·.node.side = side)

def Graph.edgesOf (g : Graph) (side : Side) : Nat :=
  ((g.rowsOf side).flatMap (·.targets)).length

/-- The sizes of a graph that was fed with a number of events. -/
def Graph.metrics (g : Graph) (events : Nat) : Metrics :=
  { events := events
    processes := (g.rowsOf .process).length
    resources := (g.rowsOf .resource).length
    waitEdges := g.edgesOf .process
    holdEdges := g.edgesOf .resource
    cycles := g.detect.cycles.length }

/-- What is known about a trace after its analysis. -/
structure Finding where
  file : String := ""
  hasDeadlock : Bool := false
  cycles : List (List Text) := []
  report : Text := ""
  suggestions : Text := ""
  warnings : List Text := []
  errors : List String := []
  /-- The sizes under their names; there are none if the analysis failed. -/
  metrics : List (String × Int) := []
  /-- The seconds that the analysis took. -/
  elapsed : Number := .real (.zero false)
deriving DecidableEq, Repr

end Gridlock
