import Mathlib.Data.List.Forall2
import Mathlib.Data.List.Nodup
import Gridlock.Graph.Export

/-!
# What is assumed of a library of multigraphs

A library lists nodes in the order in which they were added. Of the edges from one node to another it also keeps the
order, and numbers them 0, 1, 2 and so on. Nothing is assumed of the order of other edges. All that is said of exports
is said of libraries that keep to this, and tables of neighbours do.

* `between` : the links from one key to another
* `Strays` : keys that were added as ends of edges only
* `AddsLink` : a link comes after those with the same ends
* `Multigraph.Lawful` : what is assumed of the operations
* `Multigraph.Shows` : what is assumed of the data that a graph is written as
* `Multigraph.lawful_ordered`, `Multigraph.shows_ordered` : tables of neighbours
-/

namespace Gridlock

/-! ## Nodes and links in lists -/

/-- A list of nodes, with a node that is the end of an edge. -/
def withEnd (nodes : List ExportNode) (key : Text) : List ExportNode :=
  if key ∈ nodes.map (·.key) then nodes else nodes ++ [⟨key, none⟩]

/-- From one list to the other, those of the keys were added that had not been there. -/
def Strays (nodes nodes' : List ExportNode) (keys : List Text) : Prop :=
  ∃ strays : List Text, nodes' = nodes ++ strays.map (⟨·, none⟩) ∧ strays.Nodup ∧
    ∀ k, k ∈ strays ↔ k ∈ keys ∧ k ∉ nodes.map (·.key)

def between (links : List ExportLink) (source target : Text) : List ExportLink :=
  links.filter fun l => l.source = source ∧ l.target = target

/-- A link is put after those with the same ends, and its index is their number. -/
def AddsLink (links links' : List ExportLink) (relation : String) (source target : Text) : Prop :=
  ∃ before after, links = before ++ after ∧ between after source target = [] ∧
    links' = before ++ ⟨relation, source, target, (between links source target).length⟩ :: after

theorem strays_nil (nodes : List ExportNode) : Strays nodes nodes [] :=
  ⟨[], (List.append_nil nodes).symm, .nil, by simp⟩

theorem strays_withEnd (nodes : List ExportNode) (key : Text) : Strays nodes (withEnd nodes key) [key] := by
  unfold withEnd
  split
  · next h =>
    refine ⟨[], (List.append_nil nodes).symm, .nil, fun k => ?_⟩
    refine iff_of_false List.not_mem_nil ?_
    rintro ⟨hk, hnot⟩
    exact hnot (List.mem_singleton.mp hk ▸ h)
  · next h =>
    refine ⟨[key], rfl, List.nodup_singleton key, fun k => ?_⟩
    rw [List.mem_singleton, iff_self_and]
    rintro rfl
    exact h

theorem Strays.trans {a b c : List ExportNode} {keys keys' : List Text} (h : Strays a b keys)
    (h' : Strays b c keys') : Strays a c (keys ++ keys') := by
  obtain ⟨strays, rfl, hnodup, hmem⟩ := h
  obtain ⟨strays', rfl, hnodup', hmem'⟩ := h'
  have hkeys (k : Text) : k ∈ (a ++ strays.map fun key => (⟨key, none⟩ : ExportNode)).map (·.key) ↔
      k ∈ a.map (·.key) ∨ k ∈ strays := by
    simp [Function.comp_def]
  refine ⟨strays ++ strays', by rw [List.map_append, List.append_assoc], ?_, fun k => ?_⟩
  · refine List.nodup_append.mpr ⟨hnodup, hnodup', ?_⟩
    rintro k hk k' hk' rfl
    exact ((hmem' k).mp hk').2 ((hkeys k).mpr (.inr hk))
  · have h := hmem k
    have h' := hmem' k
    rw [hkeys] at h'
    rw [List.mem_append, List.mem_append]
    tauto

theorem between_append (links links' : List ExportLink) (source target : Text) :
    between (links ++ links') source target = between links source target ++ between links' source target :=
  List.filter_append ..

theorem between_eq_nil {links : List ExportLink} {source target : Text}
    (h : ∀ l ∈ links, l.source = source → l.target ≠ target) : between links source target = [] := by
  rw [between, List.filter_eq_nil_iff]
  intro l hl
  simpa using h l hl

theorem between_cons_self (l : ExportLink) (links : List ExportLink) :
    between (l :: links) l.source l.target = l :: between links l.source l.target :=
  List.filter_cons_of_pos (by simp)

theorem between_cons_of_ne {l : ExportLink} {source target : Text} (h : ¬(l.source = source ∧ l.target = target))
    (links : List ExportLink) : between (l :: links) source target = between links source target :=
  List.filter_cons_of_neg (by simpa using h)

def numberedLinks (source target : Text) (relations : List String) (start : Nat) : List ExportLink :=
  (relations.zipIdx start).map fun x => ⟨x.1, source, target, x.2⟩

theorem between_numberedLinks (source target : Text) (relations : List String) (start : Nat) :
    between (numberedLinks source target relations start) source target =
      numberedLinks source target relations start := by
  rw [between, List.filter_eq_self]
  intro l hl
  obtain ⟨x, -, rfl⟩ := List.mem_map.mp hl
  simp

namespace AddsLink

variable {links links' : List ExportLink} {relation : String} {source target : Text}

theorem between_eq (h : AddsLink links links' relation source target) (s t : Text) :
    between links' s t = between links s t ++
      if source = s ∧ target = t then [⟨relation, s, t, (between links s t).length⟩] else [] := by
  obtain ⟨before, after, rfl, hafter, rfl⟩ := h
  split
  · next hends =>
    obtain ⟨rfl, rfl⟩ := hends
    rw [between_append, between_append, hafter, List.append_nil, between_cons_self, hafter]
  · next hends =>
    rw [List.append_nil, between_append, between_cons_of_ne hends, between_append]

theorem length_eq (h : AddsLink links links' relation source target) : links'.length = links.length + 1 := by
  obtain ⟨before, after, rfl, -, rfl⟩ := h
  rw [List.length_append, List.length_append, List.length_cons, Nat.add_assoc]

/-- Links with other ends may stand around. -/
theorem surround (h : AddsLink links links' relation source target) {before after : List ExportLink}
    (hbefore : between before source target = []) (hafter : between after source target = []) :
    AddsLink (before ++ links ++ after) (before ++ links' ++ after) relation source target := by
  have hcount : between (before ++ links ++ after) source target = between links source target := by
    rw [between_append, between_append, hbefore, hafter, List.nil_append, List.append_nil]
  obtain ⟨before', after', rfl, hafter', rfl⟩ := h
  refine ⟨before ++ before', after' ++ after, by simp only [List.append_assoc], ?_, ?_⟩
  · rw [between_append, hafter', hafter, List.append_nil]
  · rw [hcount]
    simp only [List.append_assoc, List.cons_append]

end AddsLink

/-! ## Laws -/

namespace Multigraph

/-- Nodes are listed in order of insertion, and edges with the same ends too, numbered from zero on. -/
structure Lawful (lib : Multigraph) : Prop where
  nodes_empty : lib.nodes lib.empty = []
  links_empty : lib.links lib.empty = []
  nodes_addNode (m : lib.Carrier) (key : Text) (details : NodeDetails) (h : key ∉ (lib.nodes m).map (·.key)) :
    lib.nodes (lib.addNode m key details) = lib.nodes m ++ [⟨key, some details⟩]
  links_addNode (m : lib.Carrier) (key : Text) (details : NodeDetails) :
    lib.links (lib.addNode m key details) = lib.links m
  nodes_addEdge (m : lib.Carrier) (source target : Text) (relation : String) :
    lib.nodes (lib.addEdge m source target relation) = withEnd (withEnd (lib.nodes m) source) target
  links_addEdge (m : lib.Carrier) (source target : Text) (relation : String) :
    AddsLink (lib.links m) (lib.links (lib.addEdge m source target relation)) relation source target

end Multigraph

/-- The value tells the key of a node, and its attributes if it has some. -/
def ExportNode.Shown (n : ExportNode) (j : Json) : Prop :=
  j.field "id" = .str n.key ∧
    ∀ d ∈ n.details, j.field "label" = .str d.label ∧ j.field "kind" = .str d.side.name ∧
      j.field "lock_kind" = d.flavour.elim .null fun f => .str f.name

/-- The value tells the ends of a link, its relation and its index. -/
def ExportLink.Shown (l : ExportLink) (j : Json) : Prop :=
  j.field "relation" = .str l.relation ∧ j.field "source" = .str l.source ∧ j.field "target" = .str l.target ∧
    j.field "key" = .num (.whole l.index)

/-- The data of a graph tells its nodes and its edges as they are listed; the field for edges goes by another name in
some libraries. -/
structure Multigraph.Shows (lib : Multigraph) (edges : Text) : Prop where
  nodes (m : lib.Carrier) :
    ∃ items, (lib.toJson m).field "nodes" = .arr items ∧ List.Forall₂ ExportNode.Shown (lib.nodes m) items
  links (m : lib.Carrier) :
    ∃ items, (lib.toJson m).field edges = .arr items ∧ List.Forall₂ ExportLink.Shown (lib.links m) items

/-! ## Tables of neighbours -/

namespace Neighbours

variable (r : Neighbours) (source target : Text) (relation : String)

theorem links_eq : r.links source = r.relations.flatMap fun e => numberedLinks source e.1 e.2 0 := rfl

theorem between_of_ne {relations : List (Text × List String)} (h : target ∉ relations.map Prod.fst) :
    between (relations.flatMap fun e => numberedLinks source e.1 e.2 0) source target = [] := by
  apply between_eq_nil
  rintro l hl - rfl
  obtain ⟨e, he, hl⟩ := List.mem_flatMap.mp hl
  obtain ⟨x, -, rfl⟩ := List.mem_map.mp hl
  exact h (List.mem_map_of_mem he)

theorem addsLink_add :
    AddsLink (r.links source) ((r.add target relation).links source) relation source target := by
  have hlast (relations : List String) : AddsLink (numberedLinks source target relations 0)
      (numberedLinks source target (relations ++ [relation]) 0) relation source target := by
    refine ⟨_, [], (List.append_nil _).symm, rfl, ?_⟩
    rw [between_numberedLinks]
    simp [numberedLinks, List.zipIdx_append]
  rw [links_eq, links_eq]
  unfold add
  dsimp only
  cases hlookup : r.relations.lookup target with
  | none =>
    have hnone : target ∉ r.relations.map Prod.fst := Assoc.lookup_eq_none_iff.mp hlookup
    have h := (hlast []).surround (between_of_ne source target hnone)
      (rfl : between [] source target = [])
    rw [Assoc.put_of_lookup_eq_none hlookup, List.flatMap_append]
    simpa [numberedLinks] using h
  | some relations =>
    obtain ⟨before, after, hrows, hput⟩ := Assoc.exists_put_eq hlookup
    have hdistinct := r.distinct
    rw [hrows, List.map_append, List.map_cons, List.nodup_middle, List.nodup_cons, List.mem_append, not_or] at hdistinct
    have h := (hlast relations).surround (between_of_ne source target hdistinct.1.1)
      (between_of_ne source target hdistinct.1.2)
    rw [hput, hrows]
    simpa using h

end Neighbours

namespace Adjacency

variable (m : Adjacency) (key : Text)

theorem keys_nodes : m.nodes.map (·.key) = m.rows.map Prod.fst := by
  rw [nodes, List.map_map]
  rfl

theorem row_of_lookup {r : Neighbours} (h : m.rows.lookup key = some r) : m.row key = r := by
  rw [row, h, Option.getD_some]

/-- The row of a node is in its place, or it would come last. -/
theorem rows_set_cases (r : Neighbours) :
    key ∈ m.nodes.map (·.key) ∧ (∃ before after, m.rows = before ++ (key, m.row key) :: after ∧
      (m.set key r).rows = before ++ (key, r) :: after) ∨
    key ∉ m.nodes.map (·.key) ∧ m.row key = {} ∧ (m.set key r).rows = m.rows ++ [(key, r)] := by
  rw [keys_nodes]
  cases hlookup : m.rows.lookup key with
  | none =>
    refine .inr ⟨Assoc.lookup_eq_none_iff.mp hlookup, ?_, Assoc.put_of_lookup_eq_none hlookup r⟩
    rw [row, hlookup, Option.getD_none]
  | some r' =>
    obtain ⟨before, after, hrows, hput⟩ := Assoc.exists_put_eq hlookup
    rw [row_of_lookup m key hlookup]
    refine .inl ⟨?_, before, after, hrows, hput r⟩
    rw [hrows]
    simp

theorem nodes_touch : (m.touch key).nodes = withEnd m.nodes key := by
  unfold withEnd touch
  rcases m.rows_set_cases key (m.row key) with ⟨hmem, before, after, hrows, hset⟩ | ⟨hnot, hrow, hset⟩
  · rw [if_pos hmem, nodes, hset, nodes, hrows]
  · rw [if_neg hnot, nodes, hset, hrow, List.map_append]
    rfl

theorem links_set {r : Neighbours} (h : r.relations = (m.row key).relations) : (m.set key r).links = m.links := by
  have hlinks : r.links key = (m.row key).links key := by
    rw [Neighbours.links_eq, h]
    rfl
  unfold links
  rcases m.rows_set_cases key r with ⟨-, before, after, hrows, hset⟩ | ⟨-, hrow, hset⟩
  · rw [hset, hrows]
    simp only [List.flatMap_append, List.flatMap_cons, hlinks]
  · rw [hset, List.flatMap_append, List.flatMap_singleton, hlinks, hrow]
    exact List.append_nil _

theorem nodes_set {r : Neighbours} (hmem : key ∈ m.nodes.map (·.key)) (h : r.details = (m.row key).details) :
    (m.set key r).nodes = m.nodes := by
  rcases m.rows_set_cases key r with ⟨-, before, after, hrows, hset⟩ | ⟨hnot, -⟩
  · rw [nodes, hset, nodes, hrows]
    simp [h]
  · exact absurd hmem hnot

theorem addsLink_set (hmem : key ∈ m.nodes.map (·.key)) (target : Text) (relation : String) :
    AddsLink m.links (m.set key ((m.row key).add target relation)).links relation key target := by
  have hother (rows : List (Text × Neighbours)) (h : key ∉ rows.map Prod.fst) :
      between (rows.flatMap fun r => r.2.links r.1) key target = [] := by
    apply between_eq_nil
    rintro l hl rfl
    obtain ⟨r, hr, hl⟩ := List.mem_flatMap.mp hl
    obtain ⟨e, -, hl⟩ := List.mem_flatMap.mp hl
    obtain ⟨x, -, rfl⟩ := List.mem_map.mp hl
    exact absurd (List.mem_map_of_mem hr) h
  rcases m.rows_set_cases key ((m.row key).add target relation) with ⟨-, before, after, hrows, hset⟩ | ⟨hnot, -⟩
  · have hdistinct := m.distinct
    rw [hrows, List.map_append, List.map_cons, List.nodup_middle, List.nodup_cons, List.mem_append, not_or] at hdistinct
    have h := ((m.row key).addsLink_add key target relation).surround (hother before hdistinct.1.1)
      (hother after hdistinct.1.2)
    rw [links, links, hset, hrows]
    simpa using h
  · exact absurd hmem hnot

theorem nodes_addNode (details : NodeDetails) (h : key ∉ m.nodes.map (·.key)) :
    (m.addNode key details).nodes = m.nodes ++ [⟨key, some details⟩] := by
  unfold addNode
  rcases m.rows_set_cases key { m.row key with details := some details } with ⟨hmem, -⟩ | ⟨-, -, hset⟩
  · exact absurd hmem h
  · rw [nodes, hset, List.map_append]
    rfl

theorem links_addNode (details : NodeDetails) : (m.addNode key details).links = m.links :=
  m.links_set key rfl

theorem mem_keys_touch (source target : Text) :
    source ∈ ((m.touch source).touch target).nodes.map (·.key) := by
  have hsource : source ∈ (withEnd m.nodes source).map (·.key) := by
    unfold withEnd
    split
    · assumption
    · simp
  rw [nodes_touch, nodes_touch]
  obtain ⟨strays, hnodes, -⟩ := strays_withEnd (withEnd m.nodes source) target
  rw [hnodes, List.map_append]
  exact List.mem_append_left _ hsource

theorem nodes_addEdge (source target : Text) (relation : String) :
    (m.addEdge source target relation).nodes = withEnd (withEnd m.nodes source) target := by
  unfold addEdge
  dsimp only
  rw [nodes_set _ _ (m.mem_keys_touch source target), nodes_touch, nodes_touch]
  rfl

theorem addsLink_addEdge (source target : Text) (relation : String) :
    AddsLink m.links (m.addEdge source target relation).links relation source target := by
  have h := addsLink_set _ source (m.mem_keys_touch source target) target relation
  have hlinks : ((m.touch source).touch target).links = m.links :=
    ((m.touch source).links_set target rfl).trans (m.links_set source rfl)
  rwa [hlinks] at h

end Adjacency

theorem Multigraph.lawful_ordered : ordered.Lawful where
  nodes_empty := rfl
  links_empty := rfl
  nodes_addNode := Adjacency.nodes_addNode
  links_addNode := Adjacency.links_addNode
  nodes_addEdge := Adjacency.nodes_addEdge
  links_addEdge := Adjacency.addsLink_addEdge

theorem Multigraph.shows_ordered : ordered.Shows "edges" where
  nodes m := by
    refine ⟨_, rfl, List.forall₂_map_right_iff.mpr (List.forall₂_same.mpr fun n _ => ?_)⟩
    obtain ⟨key, details⟩ := n
    cases details with
    | none => exact ⟨rfl, by simp⟩
    | some d =>
      obtain ⟨label, side, flavour⟩ := d
      refine ⟨rfl, ?_⟩
      rintro - ⟨⟩
      refine ⟨rfl, rfl, ?_⟩
      cases flavour <;> rfl
  links m := ⟨_, rfl, List.forall₂_map_right_iff.mpr (List.forall₂_same.mpr fun l _ => ⟨rfl, rfl, rfl, rfl⟩)⟩

end Gridlock
