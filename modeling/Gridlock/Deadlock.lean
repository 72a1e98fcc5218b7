import Gridlock.Graph.Basic
import Gridlock.Search

/-!
# Deadlocks

A closed path of the graph witnesses a deadlock if threads and locks alternate on it and at least
two threads take part: each of these threads then waits for a lock that the next one takes.

* `isWitness` : the rule
* `Graph.digraph` : the graph as the search sees it
* `Graph.detect` : the witnesses that the search finds, in order
-/

namespace Gridlock

/-- Whether threads and locks alternate on a path. -/
def alternates (path : List Node) : Bool :=
  (path.zip path.tail).all fun e => e.1.side ≠ e.2.side

/-- The names of the threads on a path, without repetition. -/
def threadsOn (path : List Node) : List Text :=
  ((path.filter (·.isProcess)).map (·.name)).eraseDups

/-- Whether a closed path, which has its first vertex again at its end, witnesses a deadlock. -/
def isWitness (path : List Node) : Bool :=
  4 ≤ path.length && alternates path && 2 ≤ (threadsOn path).length

def pathText (path : List Node) : Text :=
  Text.intercalate " -> " (path.map (·.name))

structure Detection where
  hasDeadlock : Bool := false
  cycles : List (List Node) := []
deriving DecidableEq, Repr

namespace Detection

def cycleNames (d : Detection) : List (List Text) :=
  d.cycles.map fun c => c.map (·.name)

end Detection

namespace Graph

def digraph (g : Graph) : Digraph Node :=
  ⟨g.rows.map fun r => (r.node, r.targets)⟩

/-- The witnesses of deadlocks in the graph, in the order in which the search finds them. -/
def detect (g : Graph) : Detection :=
  let cycles := g.digraph.closedPaths.filter isWitness
  { hasDeadlock := !cycles.isEmpty, cycles := cycles }

end Graph

end Gridlock
