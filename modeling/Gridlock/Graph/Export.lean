import Gridlock.Graph.Basic
import Gridlock.Json.Basic

/-!
# Export of the graph

The graph is handed to other tools as a directed graph that may have several edges from one node to
another. Such graphs come from a library, of which only the operations are known: nodes and edges are
added one by one, and the graph that comes out can be listed and written as data. A node goes by a
key that is made of its side and its name.

* `Node.exportKey` : the key of a vertex
* `ExportNode`, `ExportLink` : nodes and edges in lists
* `Multigraph` : the operations of the library
* `Graph.exportTo` : adds the vertices of the table, and then their edges
* `Adjacency`, `Multigraph.ordered` : the operations on tables of neighbours in order of insertion
-/

namespace Gridlock

def Node.exportKey (n : Node) : Text :=
  n.side.name ++ ":" ++ n.name

structure NodeDetails where
  label : Text
  side : Side
  flavour : Option Flavour
deriving DecidableEq, Repr

/-- A node in a list. A node that was added only as the end of an edge has no attributes. -/
structure ExportNode where
  key : Text
  details : Option NodeDetails := none
deriving DecidableEq, Repr

/-- An edge in a list; `index` tells parallel edges apart. -/
structure ExportLink where
  relation : String
  source : Text
  target : Text
  index : Nat
deriving DecidableEq, Repr

/-- A library of directed graphs with parallel edges. -/
structure Multigraph where
  Carrier : Type
  empty : Carrier
  addNode (m : Carrier) (key : Text) (details : NodeDetails) : Carrier
  /-- Adds an edge, and those of its ends that are not there. -/
  addEdge (m : Carrier) (source target : Text) (relation : String) : Carrier
  nodes (m : Carrier) : List ExportNode
  links (m : Carrier) : List ExportLink
  toJson (m : Carrier) : Json

namespace Graph

def detailsOf (r : Row) : NodeDetails :=
  ⟨r.node.name, r.node.side, r.flavour⟩

/-- A thread waits for a lock, and a lock is held by a thread. -/
def relation (n : Node) : String :=
  if n.isProcess then "waits" else "holds"

section

variable (lib : Multigraph)

def addNodes (m : lib.Carrier) (rows : List Row) : lib.Carrier :=
  rows.foldl (fun m r => lib.addNode m r.node.exportKey (detailsOf r)) m

def addRow (m : lib.Carrier) (r : Row) : lib.Carrier :=
  r.targets.foldl
    (fun m v => lib.addEdge m r.node.exportKey v.exportKey (relation r.node)) m

def exportTo (g : Graph) : lib.Carrier :=
  g.rows.foldl (addRow lib) (addNodes lib lib.empty g.rows)

end

end Graph

/-! ## Tables of neighbours -/

/-- A node in a table: its attributes, and the relations of its edges, by target. -/
structure Neighbours where
  details : Option NodeDetails := none
  relations : List (Text × List String) := []
  distinct : (relations.map Prod.fst).Nodup := by simp

structure Adjacency where
  rows : List (Text × Neighbours) := []
  distinct : (rows.map Prod.fst).Nodup := by simp

namespace Neighbours

/-- Adds an edge after those that lead to the same target. -/
def add (r : Neighbours) (target : Text) (relation : String) : Neighbours :=
  { details := r.details
    relations := Assoc.put target ((r.relations.lookup target).getD [] ++ [relation]) r.relations
    distinct := Assoc.nodup_put r.distinct _ _ }

/-- The edges of a node, numbered for each target. -/
def links (r : Neighbours) (source : Text) : List ExportLink :=
  r.relations.flatMap fun e => e.2.zipIdx.map fun x => ⟨x.1, source, e.1, x.2⟩

end Neighbours

namespace Adjacency

def row (m : Adjacency) (key : Text) : Neighbours :=
  (m.rows.lookup key).getD {}

def set (m : Adjacency) (key : Text) (r : Neighbours) : Adjacency :=
  ⟨Assoc.put key r m.rows, Assoc.nodup_put m.distinct key r⟩

/-- Makes sure that a node is there. -/
def touch (m : Adjacency) (key : Text) : Adjacency :=
  m.set key (m.row key)

def addNode (m : Adjacency) (key : Text) (details : NodeDetails) : Adjacency :=
  m.set key { m.row key with details := some details }

def addEdge (m : Adjacency) (source target : Text) (relation : String) : Adjacency :=
  let m := (m.touch source).touch target
  m.set source ((m.row source).add target relation)

def nodes (m : Adjacency) : List ExportNode :=
  m.rows.map fun r => ⟨r.1, r.2.details⟩

def links (m : Adjacency) : List ExportLink :=
  m.rows.flatMap fun r => r.2.links r.1

def nodeJson (n : ExportNode) : Json :=
  .obj (match n.details with
    | some d =>
      [("label", .str d.label), ("kind", .str d.side.name),
        ("lock_kind", match d.flavour with
          | some f => .str f.name
          | none => .null),
        ("id", .str n.key)]
    | none => [("id", .str n.key)])

def linkJson (l : ExportLink) : Json :=
  .obj [("relation", .str l.relation), ("source", .str l.source), ("target", .str l.target),
    ("key", .num (.whole l.index))]

def toJson (m : Adjacency) : Json :=
  .obj [("directed", .bool true), ("multigraph", .bool true), ("graph", .obj []),
    ("nodes", .arr (m.nodes.map nodeJson)), ("edges", .arr (m.links.map linkJson))]

end Adjacency

/-- The library whose graphs are tables of neighbours. -/
def Multigraph.ordered : Multigraph where
  Carrier := Adjacency
  empty := {}
  addNode := Adjacency.addNode
  addEdge := Adjacency.addEdge
  nodes := Adjacency.nodes
  links := Adjacency.links
  toJson := Adjacency.toJson

end Gridlock
