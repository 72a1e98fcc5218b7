import Gridlock.Proofs.Consistency
import Gridlock.Proofs.Multigraph
import Gridlock.Proofs.Renaming

/-!
# What is exported of a graph

The export adds the vertices of the table one by one, and then the edges. The key of a vertex gives away its side and
its name, whatever the name is, so different vertices of a table have different keys, and each of them becomes a node
of its own. Keys tell nothing else, so graphs that differ in where their vertices come from have the same export. If
edges lead to vertices of the table only, there are no nodes besides those of the table, and the sizes of the export
are the ones that are reported of the graph.

* `Node.exportKey_inj` : what a key gives away
* `Graph.Renamed.exportTo` : graphs that correspond have the same export
* `Graph.exportTo_eq` : the two loops
* `Graph.nodes_addNodes`, `Graph.strays_addLinks`, `Graph.between_addLinks`, `Graph.length_addLinks` : what each of them
  adds
* `Graph.Tabled` : a table lists vertices of the current epoch, each once
* `Graph.Tabled.strays_exportTo`, `Graph.Tabled.between_exportTo`, `Graph.length_links`,
  `Graph.exists_edge_of_mem_links` : the export as a whole
* `Graph.WellFormed.nodes_exportTo` : the nodes, if edges stay in the table
-/

namespace Gridlock

/-! ## Keys -/

/-- The key of a vertex gives away its side and its name. -/
theorem Node.exportKey_inj {m n : Node} : m.exportKey = n.exportKey ↔ m.side = n.side ∧ m.name = n.name := by
  constructor
  · intro h
    have hside : m.side = n.side := by
      have hpoints := congrArg (fun t => (Text.points t).head?) h
      cases hm : m.side <;> cases hn : n.side <;> simp [exportKey, hm, hn, Side.name, Text.points] at hpoints ⊢
    refine ⟨hside, ?_⟩
    rw [exportKey, exportKey, hside, Text.append_right_inj] at h
    exact h
  · rintro ⟨hside, hname⟩
    rw [exportKey, exportKey, hside, hname]

namespace Graph

/-! ## Graphs that correspond -/

section Renamed
variable {f : Renaming} {g g' : Graph} (lib : Multigraph)

theorem exportKey_map (f : Renaming) (n : Node) : (f.map n).exportKey = n.exportKey :=
  Node.exportKey_inj.mpr ⟨f.side n, f.name n⟩

theorem addRow_row (f : Renaming) (m : lib.Carrier) (r : Row) : addRow lib m (f.row r) = addRow lib m r := by
  unfold addRow relation Node.isProcess Renaming.row
  simp only [List.foldl_map, exportKey_map, f.side]

/-- Graphs that correspond have the same export. -/
theorem Renamed.exportTo (h : Renamed f g g') : g'.exportTo lib = g.exportTo lib := by
  have hnodes : addNodes lib lib.empty g'.rows = addNodes lib lib.empty g.rows := by
    unfold addNodes detailsOf
    simp only [h.rows, List.foldl_map, Renaming.row, exportKey_map, f.side, f.name]
  unfold Graph.exportTo
  rw [hnodes, h.rows]
  simp only [List.foldl_map, addRow_row]

end Renamed

/-! ## The two loops -/

def edges (g : Graph) : List (Node × Node) :=
  g.rows.flatMap fun r => r.targets.map (r.node, ·)

theorem length_edges (g : Graph) : g.edges.length = g.edgeCount := by
  unfold edges edgeCount
  simp only [List.length_flatMap, List.length_map]

def addLink (lib : Multigraph) (m : lib.Carrier) (e : Node × Node) : lib.Carrier :=
  lib.addEdge m e.1.exportKey e.2.exportKey (relation e.1)

theorem exportTo_eq (lib : Multigraph) (g : Graph) :
    g.exportTo lib = g.edges.foldl (addLink lib) (addNodes lib lib.empty g.rows) := by
  unfold exportTo edges
  simp only [List.foldl_flatMap, List.foldl_map]
  rfl

section Loops
variable {lib : Multigraph} (hlib : lib.Lawful)
include hlib

def exportRow (r : Row) : ExportNode :=
  ⟨r.node.exportKey, some (detailsOf r)⟩

/-- Vertices with new keys become nodes, in order. -/
theorem nodes_addNodes (rows : List Row) (m : lib.Carrier)
    (h : ((lib.nodes m).map (·.key) ++ rows.map (·.node.exportKey)).Nodup) :
    lib.nodes (addNodes lib m rows) = lib.nodes m ++ rows.map exportRow := by
  induction rows generalizing m with
  | nil => exact (List.append_nil _).symm
  | cons r rows ih =>
    rw [List.map_cons, List.nodup_middle, List.nodup_cons] at h
    have hnew : r.node.exportKey ∉ (lib.nodes m).map (·.key) := fun hmem => h.1 (List.mem_append_left _ hmem)
    have hadd := hlib.nodes_addNode m r.node.exportKey (detailsOf r) hnew
    have hrest := ih (lib.addNode m r.node.exportKey (detailsOf r)) (by
      rw [hadd, List.map_append, List.append_assoc]
      exact (List.nodup_middle.mpr (List.nodup_cons.mpr h)))
    rw [hadd, List.append_assoc] at hrest
    exact hrest

theorem links_addNodes (rows : List Row) (m : lib.Carrier) : lib.links (addNodes lib m rows) = lib.links m := by
  induction rows generalizing m with
  | nil => rfl
  | cons r rows ih => exact (ih _).trans (hlib.links_addNode m _ _)

/-- Of the ends of edges, those become nodes that were none. -/
theorem strays_addLinks (es : List (Node × Node)) (m : lib.Carrier) :
    Strays (lib.nodes m) (lib.nodes (es.foldl (addLink lib) m))
      (es.flatMap fun e => [e.1.exportKey, e.2.exportKey]) := by
  induction es generalizing m with
  | nil => exact strays_nil _
  | cons e es ih =>
    have hends := (strays_withEnd (lib.nodes m) e.1.exportKey).trans (strays_withEnd _ e.2.exportKey)
    rw [← hlib.nodes_addEdge m e.1.exportKey e.2.exportKey (relation e.1)] at hends
    exact hends.trans (ih (addLink lib m e))

/-- The links from one key to another, which stand for the edges with these ends. -/
theorem between_addLinks (es : List (Node × Node)) (m : lib.Carrier) (s t : Text) :
    between (lib.links (es.foldl (addLink lib) m)) s t =
      between (lib.links m) s t ++
        numberedLinks s t ((es.filter fun e => e.1.exportKey = s ∧ e.2.exportKey = t).map fun e => relation e.1)
          (between (lib.links m) s t).length := by
  induction es generalizing m with
  | nil => exact (List.append_nil _).symm
  | cons e es ih =>
    have hadd := (hlib.links_addEdge m e.1.exportKey e.2.exportKey (relation e.1)).between_eq s t
    rw [List.foldl_cons, ih, addLink, hadd]
    by_cases hends : e.1.exportKey = s ∧ e.2.exportKey = t
    · rw [if_pos hends, List.filter_cons_of_pos (by simpa using hends), List.append_assoc, List.length_append]
      rfl
    · rw [if_neg hends, List.filter_cons_of_neg (by simpa using hends), List.append_nil]

theorem length_addLinks (es : List (Node × Node)) (m : lib.Carrier) :
    (lib.links (es.foldl (addLink lib) m)).length = (lib.links m).length + es.length := by
  induction es generalizing m with
  | nil => rfl
  | cons e es ih =>
    have hadd := (hlib.links_addEdge m e.1.exportKey e.2.exportKey (relation e.1)).length_eq
    rw [List.foldl_cons, ih, addLink, hadd, List.length_cons]
    omega

/-- An export has a link for every edge. -/
theorem length_links (g : Graph) : (lib.links (g.exportTo lib)).length = g.edgeCount := by
  rw [exportTo_eq, length_addLinks hlib, links_addNodes hlib, hlib.links_empty, List.length_nil, Nat.zero_add,
    length_edges]

/-- Every link of an export stands for an edge. -/
theorem exists_edge_of_mem_links {g : Graph} {l : ExportLink} (hl : l ∈ lib.links (g.exportTo lib)) :
    ∃ r ∈ g.rows, ∃ v ∈ r.targets,
      l.relation = relation r.node ∧ l.source = r.node.exportKey ∧ l.target = v.exportKey := by
  have hself : l ∈ between (lib.links (g.exportTo lib)) l.source l.target := List.mem_filter.mpr ⟨hl, by simp⟩
  rw [exportTo_eq, between_addLinks hlib, links_addNodes hlib, hlib.links_empty] at hself
  obtain ⟨x, hx, hlink⟩ := List.mem_map.mp hself
  obtain ⟨e, he, hrelation⟩ := List.mem_map.mp (List.fst_mem_of_mem_zipIdx hx)
  obtain ⟨hedge, hends⟩ := List.mem_filter.mp he
  obtain ⟨r, hr, he⟩ := List.mem_flatMap.mp hedge
  obtain ⟨v, hv, rfl⟩ := List.mem_map.mp he
  obtain ⟨hsource, htarget⟩ := of_decide_eq_true hends
  refine ⟨r, hr, v, hv, ?_, hsource.symm, htarget.symm⟩
  rw [← hlink]
  exact hrelation.symm

end Loops

/-! ## Tables -/

/-- The table lists vertices of the current epoch, each once. Edges may lead anywhere. -/
structure Tabled (g : Graph) : Prop where
  nodup : g.nodes.Nodup
  current : ∀ n ∈ g.nodes, n.mark = .listed g.epoch

theorem WellFormed.tabled {g : Graph} (h : g.WellFormed) : g.Tabled :=
  ⟨h.nodup, h.current⟩

theorem flatMap_of_nodup {α β : Type} {l : List α} (hl : l.Nodup) {a : α} (ha : a ∈ l) {f : α → List β}
    (hf : ∀ b ∈ l, b ≠ a → f b = []) : l.flatMap f = f a := by
  obtain ⟨before, after, rfl⟩ := List.append_of_mem ha
  rw [List.nodup_middle, List.nodup_cons, List.mem_append, not_or] at hl
  have hbefore : before.flatMap f = [] := by
    rw [List.flatMap_eq_nil_iff]
    intro b hb
    exact hf b (List.mem_append_left _ hb) fun heq => hl.1.1 (heq ▸ hb)
  have hafter : after.flatMap f = [] := by
    rw [List.flatMap_eq_nil_iff]
    intro b hb
    exact hf b (List.mem_append_right _ (List.mem_cons_of_mem a hb)) fun heq => hl.1.2 (heq ▸ hb)
  rw [List.flatMap_append, List.flatMap_cons, hbefore, hafter, List.nil_append, List.append_nil]

/-- The links from a vertex to a key, which are numbered from zero on. -/
def parallelLinks (r : Row) (key : Text) : List ExportLink :=
  (List.range (r.targets.countP (·.exportKey = key))).map fun i => ⟨relation r.node, r.node.exportKey, key, i⟩

theorem numberedLinks_replicate (s t : Text) (rel : String) (n : Nat) :
    numberedLinks s t (List.replicate n rel) 0 = (List.range n).map fun i => ⟨rel, s, t, i⟩ := by
  have hzip : (List.replicate n rel).zipIdx = (List.range n).map fun i => (rel, i) := by
    apply List.ext_getElem <;> simp
  rw [numberedLinks, hzip, List.map_map]
  rfl

namespace Tabled

variable {g : Graph} (h : g.Tabled)
include h

/-- Different vertices of a table have different keys. -/
theorem eq_of_exportKey_eq {m n : Node} (hm : m ∈ g.nodes) (hn : n ∈ g.nodes)
    (hkey : m.exportKey = n.exportKey) : m = n := by
  obtain ⟨hside, hname⟩ := Node.exportKey_inj.mp hkey
  have hmark : m.mark = n.mark := (h.current m hm).trans (h.current n hn).symm
  cases m
  cases n
  cases hside
  cases hname
  cases hmark
  rfl

theorem nodup_keys : (g.rows.map (·.node.exportKey)).Nodup := by
  have hkeys : (g.nodes.map (·.exportKey)).Nodup :=
    h.nodup.map_on fun _ hm _ hn hkey => h.eq_of_exportKey_eq hm hn hkey
  rwa [nodes, List.map_map] at hkeys

/-- The edges of a vertex of the table to a key. -/
theorem filter_edges {r : Row} (hr : r ∈ g.rows) (key : Text) :
    g.edges.filter (fun e => e.1.exportKey = r.node.exportKey ∧ e.2.exportKey = key) =
      (r.targets.filter (·.exportKey = key)).map (r.node, ·) := by
  have hother : ∀ r' ∈ g.rows, r' ≠ r → (r'.targets.map (r'.node, ·)).filter
      (fun e => e.1.exportKey = r.node.exportKey ∧ e.2.exportKey = key) = [] := by
    intro r' hr' hne
    have hkey : r'.node.exportKey ≠ r.node.exportKey := fun heq =>
      hne (List.inj_on_of_nodup_map h.nodup_keys hr' hr heq)
    simp [hkey]
  rw [edges, List.filter_flatMap, flatMap_of_nodup h.nodup_keys.of_map hr hother, List.filter_map]
  simp [Function.comp_def]

variable {lib : Multigraph} (hlib : lib.Lawful)
include hlib

theorem nodes_addNodes_empty : lib.nodes (addNodes lib lib.empty g.rows) = g.rows.map exportRow := by
  have hadd := nodes_addNodes hlib g.rows lib.empty
  rw [hlib.nodes_empty] at hadd
  exact hadd h.nodup_keys

/-- The nodes of an export: the vertices of the table, and the other keys that edges lead to. -/
theorem strays_exportTo :
    Strays (g.rows.map exportRow) (lib.nodes (g.exportTo lib))
      (g.rows.flatMap fun r => r.targets.map (·.exportKey)) := by
  obtain ⟨strays, hnodes, hnodup, hmem⟩ := strays_addLinks hlib g.edges (addNodes lib lib.empty g.rows)
  rw [h.nodes_addNodes_empty hlib, ← exportTo_eq] at hnodes
  rw [h.nodes_addNodes_empty hlib] at hmem
  refine ⟨strays, hnodes, hnodup, fun k => ?_⟩
  rw [hmem]
  refine and_congr_left fun hnot => ?_
  simp only [edges, List.mem_flatMap, List.mem_map]
  constructor
  · rintro ⟨-, ⟨r, hr, v, hv, rfl⟩, hk⟩
    rcases List.mem_pair.mp hk with rfl | rfl
    · refine absurd ?_ hnot
      rw [List.map_map]
      exact List.mem_map_of_mem hr
    · exact ⟨r, hr, v, hv, rfl⟩
  · rintro ⟨r, hr, v, hv, rfl⟩
    exact ⟨(r.node, v), ⟨r, hr, v, hv, rfl⟩, by simp⟩

/-- The links of an export from a vertex to a key. -/
theorem between_exportTo {r : Row} (hr : r ∈ g.rows) (key : Text) :
    between (lib.links (g.exportTo lib)) r.node.exportKey key = parallelLinks r key := by
  rw [exportTo_eq, between_addLinks hlib, links_addNodes hlib, hlib.links_empty, h.filter_edges hr key, List.map_map]
  have hconst : (r.targets.filter (·.exportKey = key)).map ((fun e : Node × Node => relation e.1) ∘ (r.node, ·)) =
      List.replicate (r.targets.countP (·.exportKey = key)) (relation r.node) := by
    rw [List.countP_eq_length_filter, ← List.map_const']
    rfl
  rw [hconst]
  exact numberedLinks_replicate _ _ _ _

end Tabled

/-! ## Sizes -/

/-- The vertices of the table are threads or locks. -/
theorem perm_rows (g : Graph) : (g.rowsOf .process ++ g.rowsOf .resource).Perm g.rows := by
  have hnot : g.rowsOf .resource = g.rows.filter fun r => !decide (r.node.side = .process) := by
    apply List.filter_congr
    intro r _
    cases r.node.side <;> rfl
  rw [hnot]
  exact List.filter_append_perm _ g.rows

theorem length_rows (g : Graph) : g.rows.length = (g.rowsOf .process).length + (g.rowsOf .resource).length := by
  rw [← g.perm_rows.length_eq, List.length_append]

theorem edgeCount_eq_edgesOf (g : Graph) : g.edgeCount = g.edgesOf .process + g.edgesOf .resource := by
  unfold edgeCount edgesOf
  rw [← (g.perm_rows.flatMap_right _).length_eq, List.flatMap_append, List.length_append]

namespace WellFormed

variable {g : Graph} (h : g.WellFormed)
include h

theorem mem_nodes_of_target {r : Row} (hr : r ∈ g.rows) {v : Node} (hv : v ∈ r.targets) : v ∈ g.nodes := by
  rw [← targetsOf_of_mem h.nodup hr] at hv
  exact h.target_mem r.node v hv

/-- If edges do not lead out of the table, the nodes are the vertices of the table. -/
theorem nodes_exportTo {lib : Multigraph} (hlib : lib.Lawful) :
    lib.nodes (g.exportTo lib) = g.rows.map exportRow := by
  obtain ⟨strays, hnodes, -, hmem⟩ := h.tabled.strays_exportTo hlib
  have hnone : strays = [] := by
    rw [List.eq_nil_iff_forall_not_mem]
    intro k hk
    obtain ⟨htarget, hnot⟩ := (hmem k).mp hk
    obtain ⟨r, hr, hk⟩ := List.mem_flatMap.mp htarget
    obtain ⟨v, hv, rfl⟩ := List.mem_map.mp hk
    obtain ⟨r', hr', rfl⟩ := List.mem_map.mp (h.mem_nodes_of_target hr hv)
    rw [List.map_map] at hnot
    exact hnot (List.mem_map_of_mem hr')
  rw [hnodes, hnone, List.map_nil, List.append_nil]

end WellFormed

end Graph

end Gridlock
