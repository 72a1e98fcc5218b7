import Gridlock.Assoc
import Gridlock.Lock.Flavour

/-!
# The graph of threads and locks

The vertices are threads, on the process side, and locks, on the resource side. An edge from a lock
to a thread says that the thread takes the lock; an edge from a thread to a lock says that the thread
waits for the lock while it holds another. Edges are kept in order, with repetition, at the vertex
they leave.

A graph keeps a table of its vertices in the order in which they came up. Emptying the table starts
a new epoch: a vertex of the same name that comes up later is another vertex. The vertices that are
outside the table keep their edges, and may be the targets of edges.

* `Side`, `Mark`, `Node` : vertices and what makes them one and the same
* `Row` : a vertex with its edges
* `Graph.intern`, `Graph.link`, `Graph.reset`, `Graph.addLoose` : operations
* `Graph.row?`, `Graph.edgeCount`, `Graph.targetsOf` : views
* `Graph.byLabel` : the table for display
-/

namespace Gridlock

inductive Side
  | process
  | resource
deriving DecidableEq, Repr

def Side.name : Side → String
  | process => "PROCESS"
  | resource => "RESOURCE"

/-- Where a vertex comes from: an epoch of the table, or outside the table, with a number. -/
inductive Mark
  | listed (epoch : Nat)
  | loose (index : Nat)
deriving DecidableEq, Repr

/-- A vertex. Two vertices are the same only if they also come from the same place. -/
structure Node where
  side : Side
  name : Text
  mark : Mark := .listed 0
deriving DecidableEq, Repr

namespace Node

def isProcess (n : Node) : Bool := n.side = .process

def isResource (n : Node) : Bool := n.side = .resource

def describe (n : Node) : Text :=
  n.name ++ " (" ++ n.side.name ++ ")"

end Node

/-- A vertex with the flavour recorded for it and the targets of its edges, in order. -/
structure Row where
  node : Node
  flavour : Option Flavour := none
  targets : List Node := []
deriving DecidableEq, Repr

/-- The table of the current epoch, and the rows outside the table. -/
structure Graph where
  epoch : Nat := 0
  rows : List Row := []
  spares : List Row := []
deriving DecidableEq, Repr

namespace Graph

def empty : Graph := {}

/-- The vertex that stands for a name in the current epoch. -/
def listed (g : Graph) (side : Side) (name : Text) : Node :=
  ⟨side, name, .listed g.epoch⟩

def row? (g : Graph) (n : Node) : Option Row :=
  g.rows.find? fun r => r.node = n

/-- The row of a vertex, in the table or outside it. -/
def anyRow? (g : Graph) (n : Node) : Option Row :=
  (g.rows ++ g.spares).find? fun r => r.node = n

/-- Makes sure that a vertex is in the table. A lock keeps the first flavour it is given; a thread
has none. -/
def intern (g : Graph) (side : Side) (name : Text) (flavour : Option Flavour := none) : Graph :=
  let n := g.listed side name
  let given := if side = .resource then flavour else none
  if (g.row? n).isSome then
    { g with
      rows := g.rows.map fun r => if r.node = n then { r with flavour := r.flavour.or given } else r }
  else { g with rows := g.rows ++ [{ node := n, flavour := given }] }

/-- Appends an edge to the row of `u`. -/
def linkRow (u v : Node) (r : Row) : Row :=
  if r.node = u then { r with targets := r.targets ++ [v] } else r

def link (g : Graph) (u v : Node) : Graph :=
  { g with rows := g.rows.map (linkRow u v), spares := g.spares.map (linkRow u v) }

def reset (g : Graph) : Graph :=
  { epoch := g.epoch + 1, rows := [], spares := g.spares ++ g.rows }

def nextLoose (g : Graph) (side : Side) (name : Text) : Node :=
  ⟨side, name, .loose g.spares.length⟩

/-- Adds a vertex outside the table. -/
def addLoose (g : Graph) (side : Side) (name : Text) (flavour : Option Flavour) : Graph :=
  { g with spares := g.spares ++ [{ node := g.nextLoose side name, flavour := flavour }] }

def nodes (g : Graph) : List Node :=
  g.rows.map (·.node)

/-- The number of edges that leave the vertices of the table. -/
def edgeCount (g : Graph) : Nat :=
  (g.rows.flatMap (·.targets)).length

/-- The targets of the edges of a vertex, which are none for a vertex outside the table. -/
def targetsOf (g : Graph) (n : Node) : List Node :=
  ((g.row? n).map (·.targets)).getD []

/-! ## Labels -/

/-- Puts a vertex under its name or, if its name is a label already, under its description. -/
def addLabel (labels : List (Text × Node)) (n : Node) : List (Text × Node) :=
  Assoc.put (if (labels.lookup n.name).isNone then n.name else n.describe) n labels

/-- The vertices of the table under their labels. -/
def byLabel (g : Graph) : List (Text × Node) :=
  g.nodes.foldl addLabel []

end Graph

end Gridlock
